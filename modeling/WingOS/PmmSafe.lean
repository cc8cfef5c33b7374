/-
# Pages are handed out once, and only free ones

Runs of the page allocator from its creation on. If the sections do not
overlap, live allocations share no page, none meets the allocator's own pages,
each can be released, and an allocation fails only if there is no run of free
pages (`pages_exclusive`). A page is free here if creation has not marked it,
and `create_marks` says which those are.

That a page that is handed out was FREE in the memory map is another matter. A
section is the range of its entry with the start rounded up and the length
rounded down, so it can stick out of the entry (`page_outside_entry`); if no
entry has such remainders, all is well (`pages_free`).

Key definitions: `Machine.step`, `Inv`, `Exclusive`, `EntryFits`.
Key theorems: `inv_step`, `pages_exclusive`, `pages_free`.
-/
import WingOS.Lib.Run
import WingOS.PmmCreate

namespace WingOS

open Lib (Memory bitAt)

/-! ### Runs of the allocator -/

namespace Pmm

open PageRange

/-- The allocator and the allocations that are live, with their counts. -/
structure Machine where
  pmm : Pmm
  live : List PageRange := []

inductive Op
  | allocate (count : ℕ) (lower : Bool)
  | release (addr count : ℕ)

def Machine.step (s : Machine) : Op → Option Machine
  | .allocate count lower =>
    match s.pmm.allocate count lower with
    | (.ok addr, pmm) => some { pmm, live := (addr, count) :: s.live }
    | (.error _, pmm) => some { s with pmm }
  | .release addr count =>
    (s.pmm.release addr count).map fun (_, pmm) => { pmm, live := s.live.erase (addr, count) }

/-- At least one page, or a live allocation with its own count. -/
def OwnCall (s : Machine) : Op → Prop
  | .allocate count _ => 0 < count
  | .release addr count => (addr, count) ∈ s.live

/-- What holds along a run from `p₀`: a page is marked exactly if it was marked
in `p₀` or is in a live allocation. -/
structure Inv (p₀ : Pmm) (s : Machine) : Prop where
  same : p₀.Same s.pmm
  within : ∀ b ∈ s.live, 0 < b.2 ∧ ∃ w ∈ p₀.windows, ∃ i, Run w i b.1 b.2
  marked : ∀ w ∈ p₀.windows, ∀ j < w.pages,
    w.bit s.pmm.mem j = true ↔ w.bit p₀.mem j = true ∨ ∃ b ∈ s.live, Covers b (w.page j)
  fresh : ∀ b ∈ s.live, ∀ w ∈ p₀.windows, ∀ j < w.pages,
    Covers b (w.page j) → w.bit p₀.mem j = false
  apart : s.live.Pairwise Apart

theorem inv_init (p₀ : Pmm) : Inv p₀ { pmm := p₀ } where
  same := Same.refl p₀
  within := nofun
  marked := by simp
  fresh := nofun
  apart := List.Pairwise.nil

section Step

variable {p₀ : Pmm} {s : Machine}

theorem inv_allocate_ok (hL : Layout p₀.windows) (h : Inv p₀ s) {count addr : ℕ} {lower : Bool}
    (hpos : 0 < count) {pmm : Pmm} (ha : s.pmm.allocate count lower = (.ok addr, pmm)) :
    Inv p₀ { pmm, live := (addr, count) :: s.live } := by
  have hws := h.same.1
  obtain ⟨hsame, w, hw, i, hrun, hclear, hset⟩ := allocate_ok (hws ▸ hL) ha
  rw [hws] at hw
  -- the pages of the run were neither marked in `p₀` nor live
  have hnew : ∀ v ∈ p₀.windows, ∀ j < v.pages, Covers (addr, count) (v.page j) →
      v.bit s.pmm.mem j = false := by
    intro v hv j hj hc
    obtain ⟨rfl, h1, h2⟩ := (hL.covers_iff hv hw hrun hj).mp hc
    exact hclear j h1 h2
  refine ⟨h.same.trans hsame, ?_, ?_, ?_, ?_⟩
  · intro b hb
    rcases List.mem_cons.mp hb with rfl | hb
    · exact ⟨hpos, w, hw, i, hrun⟩
    · exact h.within b hb
  · intro v hv j hj
    rw [hL.bit_setsRun hv hw hrun hset hj, h.marked v hv j hj, List.exists_mem_cons_iff, or_assoc]
    exact or_congr Iff.rfl or_comm
  · intro b hb v hv j hj hc
    rcases List.mem_cons.mp hb with rfl | hb
    · have := hnew v hv j hj hc
      rw [Bool.eq_false_iff, Ne, h.marked v hv j hj, not_or] at this
      exact Bool.eq_false_iff.mpr this.1
    · exact h.fresh b hb v hv j hj hc
  · refine List.Pairwise.cons (fun b hb => ?_) h.apart
    obtain ⟨hposb, v, hv, t, hrunb⟩ := h.within b hb
    refine hL.apart hv hw hrun hpos hrunb hposb fun j hj hc hcb => ?_
    have := (h.marked w hw j hj).mpr (.inr ⟨b, hb, hcb⟩)
    rw [hnew w hw j hj hc] at this
    cases this

theorem inv_allocate_error (h : Inv p₀ s) {count : ℕ} {lower : Bool} {e : String} {pmm : Pmm}
    (ha : s.pmm.allocate count lower = (.error e, pmm)) : Inv p₀ { s with pmm } := by
  obtain ⟨hsame, hmem, -⟩ := allocate_error ha
  refine ⟨h.same.trans hsame, h.within, ?_, h.fresh, h.apart⟩
  dsimp only
  rw [hmem]
  exact h.marked

/-- A live allocation is a run of marked pages. -/
theorem Inv.run_marked (hL : Layout p₀.windows) (h : Inv p₀ s) {b : PageRange} (hb : b ∈ s.live) :
    ∃ w ∈ p₀.windows, ∃ i, Run w i b.1 b.2 ∧
      ∀ j, i ≤ j → j < i + b.2 → w.bit s.pmm.mem j = true := by
  obtain ⟨-, w, hw, i, hrun⟩ := h.within b hb
  refine ⟨w, hw, i, hrun, fun j h1 h2 => ?_⟩
  have hj : j < w.pages := by
    have := hrun.le_pages
    omega
  refine (h.marked w hw j hj).mpr (.inr ⟨b, hb, ?_⟩)
  exact (hL.covers_iff hw hw hrun hj).mpr ⟨rfl, h1, h2⟩

theorem inv_release (hL : Layout p₀.windows) (h : Inv p₀ s) {addr count : ℕ}
    (hb : (addr, count) ∈ s.live) :
    ∃ pmm, s.pmm.release addr count = some (.ok (), pmm) ∧
      Inv p₀ { pmm, live := s.live.erase (addr, count) } := by
  have hws := h.same.1
  obtain ⟨w, hw, i, hrun, hset⟩ := h.run_marked hL hb
  have hi : i < w.pages := by
    have hpos := (h.within _ hb).1
    have hle := hrun.le_pages
    omega
  obtain ⟨pmm, hrel, hsame, hclear⟩ := release_ok (hws ▸ hL) (hws ▸ hw) hrun hi hset
  have hperm := List.perm_cons_erase hb
  have hmem : ∀ b, b ∈ s.live ↔ b = (addr, count) ∨ b ∈ s.live.erase (addr, count) := fun b => by
    rw [hperm.mem_iff, List.mem_cons]
  have hpair := (List.Perm.pairwise_iff (fun h => Or.symm h) hperm).mp h.apart
  rw [List.pairwise_cons] at hpair
  refine ⟨pmm, hrel, h.same.trans hsame, ?_, ?_, ?_, hpair.2⟩
  · exact fun b hb' => h.within b ((hmem b).mpr (.inr hb'))
  · intro v hv j hj
    rw [hL.bit_clearsRun hv hw hrun hclear hj, h.marked v hv j hj]
    constructor
    · rintro ⟨h0 | ⟨b, hb', hc⟩, hnot⟩
      · exact .inl h0
      · rcases (hmem b).mp hb' with rfl | hb'
        · exact absurd hc hnot
        · exact .inr ⟨b, hb', hc⟩
    · rintro (h0 | ⟨b, hb', hc⟩)
      · refine ⟨.inl h0, fun hc => ?_⟩
        rw [h.fresh _ hb v hv j hj hc] at h0
        cases h0
      · refine ⟨.inr ⟨b, (hmem b).mpr (.inr hb'), hc⟩, fun hc' => ?_⟩
        have hap := hpair.1 b hb'
        unfold Covers at hc hc'
        omega
  · exact fun b hb' => h.fresh b ((hmem b).mpr (.inr hb'))

/-- A call with its own arguments returns, and keeps the invariant. -/
theorem inv_step (hL : Layout p₀.windows) (h : Inv p₀ s) (op : Op) (hop : OwnCall s op) :
    ∃ s', s.step op = some s' ∧ Inv p₀ s' := by
  cases op with
  | allocate count lower =>
    unfold Machine.step
    dsimp only
    cases ha : s.pmm.allocate count lower with
    | mk res pmm =>
      cases res with
      | ok addr => exact ⟨_, rfl, inv_allocate_ok hL h hop ha⟩
      | error e => exact ⟨_, rfl, inv_allocate_error h ha⟩
  | release addr count =>
    obtain ⟨pmm, hrel, hinv⟩ := inv_release hL h hop
    unfold Machine.step
    dsimp only
    rw [hrel]
    exact ⟨_, rfl, hinv⟩

/-- No live allocation meets the pages of the allocator: those are marked from
the start. -/
theorem Inv.apart_reserved {context : MachineContext} (h : Inv p₀ s) (hc : Created context p₀)
    (hd : SectionsDisjoint context) (hL : Layout p₀.windows) (b : PageRange) (hb : b ∈ s.live) :
    b.1 + 4096 * b.2 ≤ p₀.range.start ∨ p₀.range.stop ≤ b.1 := by
  obtain ⟨w, hw, hrun, hstop⟩ := hc.reserved hd
  obtain ⟨hpos, v, hv, i, hrunb⟩ := h.within b hb
  rcases Nat.eq_zero_or_pos (pmmSize context / 4096) with hzero | hpages
  · have h1 := hrun.addr_eq
    have h2 := hrunb.addr_eq
    have h3 := hrunb.le_pages
    have h4 := hL.proper v hv
    have h5 := hL.proper w hw
    unfold Window.page at h1 h2
    unfold Window.pages at h3
    by_cases hvw : v = w
    · subst hvw
      omega
    · rcases hL.disjoint.forall hv hw hvw with hr | hr
      · omega
      · omega
  · have hap : Apart (b.1, b.2) _ := hL.apart hw hv hrunb hpos hrun hpages fun j hj hcb hcr => ?_
    · unfold Apart at hap
      dsimp only at hap
      omega
    · obtain ⟨rfl, -, hj'⟩ := (hL.covers_iff hv hw hrun hj).mp hcr
      have := hc.marked hd hw hrun (j := j) (by omega)
      rw [h.fresh b hb v hv j hj hcb] at this
      cases this

end Step

/-- Live allocations share no page, with each other or with the allocator;
each of them can be released; and an allocation fails only if no section has
such a run of pages that are free. A page that was free when the allocator was
created, in `p₀`, and is not in a live allocation is free; which pages were not
is `create_marks`. -/
structure Exclusive (p₀ : Pmm) (s : Machine) : Prop where
  disjoint : s.live.Pairwise Apart
  reserved : ∀ b ∈ s.live, b.1 + 4096 * b.2 ≤ p₀.range.start ∨ p₀.range.stop ≤ b.1
  release : ∀ b ∈ s.live, ∃ pmm, s.pmm.release b.1 b.2 = some (.ok (), pmm)
  fails : ∀ count lower e pmm, 0 < count → s.pmm.allocate count lower = (.error e, pmm) →
    ∀ w ∈ p₀.windows, ∀ i, i + count ≤ w.pages → ∃ j, i ≤ j ∧ j < i + count ∧
      (w.bit p₀.mem j = true ∨ ∃ b ∈ s.live, Covers b (w.page j))

/-- **Pages are handed out once.** -/
theorem pages_exclusive (context : MachineContext) (m : Memory) (p₀ : Pmm)
    (hcreate : create context m = .ok p₀) (hd : SectionsDisjoint context) (ops : List Op)
    (hops : Lib.Meets Machine.step OwnCall ops { pmm := p₀ }) :
    ∃ s, Lib.run Machine.step ops { pmm := p₀ } = some s ∧ Exclusive p₀ s := by
  have hc := created hcreate
  have hL : Layout p₀.windows := by
    rw [hc.windows]
    exact layout_windowsOf hd _
  obtain ⟨s, hrun, hinv⟩ := Lib.run_total_of_meets (P := Inv p₀)
    (fun s op h hop => inv_step hL h op hop) ops hops (inv_init p₀)
  refine ⟨s, hrun, hinv.apart, hinv.apart_reserved hc hd hL, fun b hb => ?_, ?_⟩
  · obtain ⟨pmm, hrel, -⟩ := inv_release hL hinv hb
    exact ⟨pmm, hrel⟩
  · intro count lower e pmm hpos ha w hw i hi
    obtain ⟨-, -, hnone⟩ := allocate_error ha
    obtain ⟨j, h1, h2, hbit⟩ := hnone hpos w (hinv.same.1 ▸ hw) i hi
    exact ⟨j, h1, h2, (hinv.marked w hw j (by omega)).mp hbit⟩

/-- 64 KiB of memory at 1 MiB; the allocator takes the first half. -/
def smallMap : MachineContext where
  memoryMap := [{ range := ⟨0x100000, 0x110000, by decide, by decide⟩, type := .free }]
  count_le := by decide

def smallPmm : Pmm :=
  match create smallMap fun _ => 0 with
  | .ok p => p
  | .error _ => ⟨⟨0, 0, by decide, by decide⟩, [], 0, fun _ => 0⟩

theorem pages_exclusive_small :
    ∃ s, Lib.run Machine.step [.allocate 1 false, .allocate 2 true, .release 0x108000 1]
      { pmm := smallPmm } = some s ∧ Exclusive smallPmm s := by
  refine pages_exclusive smallMap (fun _ => 0) smallPmm rfl ⟨by decide +kernel, by decide +kernel⟩ _
    ⟨Nat.one_pos, fun s₁ h₁ => ⟨Nat.two_pos, fun s₂ h₂ => ⟨?_, fun _ _ => trivial⟩⟩⟩
  have hlive : (Lib.run Machine.step [.allocate 1 false, .allocate 2 true]
      { pmm := smallPmm }).map Machine.live = some [(0x109000, 2), (0x108000, 1)] := by
    decide +kernel
  rw [Lib.run_cons, h₁, Option.bind_some, Lib.run_cons, h₂, Option.bind_some, Lib.run_nil,
    Option.map_some, Option.some_inj] at hlive
  unfold OwnCall
  rw [hlive]
  decide

/-! ### Only free memory -/

/-- The entries are ranges of whole pages, and no two overlap. -/
structure MapOk (context : MachineContext) : Prop where
  proper : ∀ e ∈ context.memoryMap, e.range.start ≤ e.range.stop
  pages : ∀ e ∈ context.memoryMap, e.range.start % 4096 = 0 ∧ e.range.len % 4096 = 0
  disjoint : context.memoryMap.Pairwise fun e f =>
    e.range.stop ≤ f.range.start ∨ f.range.stop ≤ e.range.start

/-- A FREE entry of 32 KiB or more starts at a multiple of 32 KiB, or what is
over at its start and its length makes up another 32 KiB. -/
def EntryFits (e : MemoryMap) : Prop :=
  e.type = .free → 32768 ≤ e.range.len →
    e.range.start % 32768 = 0 ∨ 32768 ≤ e.range.start % 32768 + e.range.len % 32768

/-- The addresses are in one FREE entry. -/
def InFree (context : MachineContext) (start stop : ℕ) : Prop :=
  ∃ e ∈ context.memoryMap, e.type = .free ∧ e.range.start ≤ start ∧ stop ≤ e.range.stop

/-- What is handed out after any calls is FREE memory, and so is the place of
the allocator. -/
def PagesFree (context : MachineContext) (p₀ : Pmm) : Prop :=
  InFree context p₀.range.start p₀.range.stop ∧
  ∀ (ops : List Op) (s : Machine), Lib.run Machine.step ops { pmm := p₀ } = some s →
    ∀ (count addr : ℕ) (lower : Bool) (pmm : Pmm),
      s.pmm.allocate count lower = (.ok addr, pmm) → InFree context addr (addr + 4096 * count)

theorem section_within {e : MemoryMap} (hproper : e.range.start ≤ e.range.stop) (hfit : EntryFits e)
    (hsec : e.IsSection) :
    e.range.start ≤ e.section.start ∧ e.section.start + e.section.len ≤ e.range.stop := by
  obtain ⟨hfree, hlen⟩ := isSection_iff.mp hsec
  have hstart : e.section.start = _ :=
    Range.shrinkAlign_start_eq (k := 15) (by decide) hproper hlen
  refine ⟨?_, (Range.shrinkAlign_within_iff (k := 15) (by decide) hproper hlen).mpr (hfit hfree hlen)⟩
  rw [hstart]
  split
  · exact Nat.le_refl _
  · omega

/-- A section inside its entry does not wrap around. -/
theorem section_stop {e : MemoryMap} (h : e.section.start + e.section.len ≤ e.range.stop) :
    e.section.stop = e.section.start + e.section.len := by
  have h1 := e.range.stop_lt
  have h2 := e.section.stop_lt
  have h3 := e.section.start_lt
  unfold Range.len at *
  omega

theorem sectionsDisjoint_of_fits {context : MachineContext} (hmap : MapOk context)
    (hfit : ∀ e ∈ context.memoryMap, EntryFits e) : SectionsDisjoint context where
  proper := by
    intro e he hsec
    obtain ⟨-, h⟩ := section_within (hmap.proper e he) (hfit e he) hsec
    rw [section_stop h]
    exact Nat.le_add_right _ _
  disjoint := by
    rw [List.pairwise_filter]
    refine hmap.disjoint.imp_of_mem fun {e f} he hf hef hse hsf => ?_
    obtain ⟨h1, h2⟩ := section_within (hmap.proper e he) (hfit e he) (of_decide_eq_true hse)
    obtain ⟨h3, h4⟩ := section_within (hmap.proper f hf) (hfit f hf) (of_decide_eq_true hsf)
    rw [section_stop h2, section_stop h4]
    omega

theorem release_same {p p' : Pmm} {addr count : ℕ} {res : Except String Unit}
    (h : p.release addr count = some (res, p')) : p.Same p' := by
  unfold release at h
  split at h
  · simp only [Option.some_inj, Prod.mk.injEq] at h
    rw [← h.2]
    exact Same.refl p
  · dsimp only at h
    split at h
    · cases h
    · simp only [Option.some_inj, Prod.mk.injEq] at h
      rw [← h.2]
      exact ⟨rfl, rfl, rfl⟩

/-- No call changes the windows, whatever its arguments. -/
theorem same_step {p₀ : Pmm} (hL : Layout p₀.windows) (s : Machine) (op : Op) (s' : Machine)
    (h : p₀.Same s.pmm) (hstep : s.step op = some s') : p₀.Same s'.pmm := by
  cases op with
  | allocate count lower =>
    unfold Machine.step at hstep
    dsimp only at hstep
    split at hstep
    · rename_i ha
      rw [← Option.some.inj hstep]
      exact h.trans (allocate_ok (h.1 ▸ hL) ha).1
    · rename_i ha
      rw [← Option.some.inj hstep]
      exact h.trans (allocate_error ha).1
  | release addr count =>
    obtain ⟨⟨res, pmm⟩, hrel, rfl⟩ := Option.map_eq_some_iff.mp hstep
    exact h.trans (release_same hrel)

/-- **Only free memory is handed out**, if every entry fits. -/
theorem pages_free (context : MachineContext) (m : Memory) (p₀ : Pmm) (hmap : MapOk context)
    (hfit : ∀ e ∈ context.memoryMap, EntryFits e) (hcreate : create context m = .ok p₀) :
    PagesFree context p₀ := by
  have hc := created hcreate
  have hd := sectionsDisjoint_of_fits hmap hfit
  have hL : Layout p₀.windows := by
    rw [hc.windows]
    exact layout_windowsOf hd _
  -- a run of a window is in the entry of its section
  have hfree : ∀ w ∈ p₀.windows, ∀ i addr count, Run w i addr count →
      InFree context addr (addr + 4096 * count) := by
    intro w hw i addr count hrun
    have hproper := hL.proper w hw
    rw [hc.windows] at hw
    obtain ⟨-, -, e, he, hsec, hr⟩ := mem_windowsOf hw
    obtain ⟨h1, h2⟩ := section_within (hmap.proper e he) (hfit e he) hsec
    have hstop := section_stop h2
    have haddr := hrun.addr_eq
    have hle := hrun.le_pages
    unfold Window.page at haddr
    unfold Window.pages at hle
    rw [hr] at haddr hproper
    exact ⟨e, he, hsec.1, by omega, by omega⟩
  constructor
  · obtain ⟨w, hw, hrun, hstop⟩ := hc.reserved hd
    rw [hstop]
    exact hfree w hw _ _ _ hrun
  · intro ops s hrun count addr lower pmm ha
    have hsame := Lib.run_invariant (P := fun s : Machine => p₀.Same s.pmm) (same_step hL)
      (Same.refl p₀) hrun
    obtain ⟨-, w, hw, i, hrunw, -⟩ := allocate_ok (hsame.1 ▸ hL) ha
    exact hfree w (hsame.1 ▸ hw) i addr count hrunw

theorem pages_free_small : PagesFree smallMap smallPmm :=
  pages_free smallMap (fun _ => 0) smallPmm
    ⟨by decide +kernel, by decide +kernel, by decide +kernel⟩ (by unfold EntryFits; decide +kernel) rfl

/-- A FREE entry of 32 KiB that starts at 4 KiB, with reserved memory after
it. -/
def unalignedMap : MachineContext where
  memoryMap :=
    [{ range := ⟨0x100000, 0x108000, by decide, by decide⟩, type := .free },
      { range := ⟨0x1000, 0x9000, by decide, by decide⟩, type := .free },
      { range := ⟨0x9000, 0x10000, by decide, by decide⟩, type := .reserved }]
  count_le := by decide

/-- Its section is `[0x8000, 0x10000)`, and eight pages of it are handed
out. -/
theorem page_outside_entry :
    ¬ ∀ (context : MachineContext) (m : Memory) (p₀ : Pmm), MapOk context →
      create context m = .ok p₀ → PagesFree context p₀ := by
  intro h
  have haddr : ((create unalignedMap fun _ => 0).toOption.bind fun p =>
      (p.allocate 8 false).1.toOption) = some 0x8000 := by decide +kernel
  have hmap : MapOk unalignedMap := ⟨by decide +kernel, by decide +kernel, by decide +kernel⟩
  cases hcreate : create unalignedMap fun _ => 0 with
  | error e =>
    rw [hcreate] at haddr
    cases haddr
  | ok p₀ =>
    rw [hcreate] at haddr
    cases halloc : p₀.allocate 8 false with
    | mk res pmm =>
      change (p₀.allocate 8 false).1.toOption = some 0x8000 at haddr
      rw [halloc] at haddr
      cases res with
      | error e => cases haddr
      | ok addr =>
        obtain rfl : addr = 0x8000 := Option.some.inj haddr
        have hfree := (h unalignedMap _ p₀ hmap hcreate).2 [] _ rfl 8 _ false pmm halloc
        unfold InFree at hfree
        exact absurd hfree (by decide +kernel)

end Pmm
end WingOS
