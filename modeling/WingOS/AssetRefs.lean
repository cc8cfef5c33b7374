/-
# References are counted

Who refers to an asset: an entry of the table of a space, or a mapping to its
memory. The counter of an asset is never less than the number of these
(`Refs`), so what a holder refers to exists, and an asset whose last reference
is dropped has no holder left. Between the removal of a holder and the
`Asset::deref` that goes with it, the reference is in nobody's hands; `loc`
counts such references.

Key definitions: `Holder`, `Kernel.holds`, `Refs`.
Key theorems: `refs_moveOut`, `refs_dec`, `refs_delete`, `refs_allocate`, `refs_move`.
-/
import WingOS.Assets
import WingOS.Lib.Counted

namespace WingOS

open Lib (Counted)

inductive Holder
  | entry (space : SpacePtr) (h : ℕ)
  | mapping (p : AssetPtr)
  deriving DecidableEq

/-- The asset that an asset of this kind refers to. -/
def AssetKind.memoryOf : AssetKind → Option AssetPtr
  | .mapping _ _ physicalMem _ _ => physicalMem.asset
  | _ => none

/-- The memory of a mapping. -/
def mappedBy (kinds : AssetPtr → Option AssetKind) (p : AssetPtr) : Option AssetPtr :=
  (kinds p).bind AssetKind.memoryOf

theorem mappedBy_update_of_ne {kinds : AssetPtr → Option AssetKind} {p a : AssetPtr} (h : p ≠ a)
    (k : Option AssetKind) : mappedBy (Function.update kinds a k) p = mappedBy kinds p := by
  unfold mappedBy
  rw [Function.update_of_ne h]

def AssetKind.isMemory : AssetKind → Bool
  | .memory _ _ _ => true
  | _ => false

namespace Kernel

def kindAt (s : Kernel) (a : AssetPtr) : Option AssetKind := (s.heap a).map Asset.kind

def holds (s : Kernel) : Holder → Option AssetPtr
  | .entry space h => (s.tables space).assetAt h
  | .mapping p => mappedBy s.kindAt p

@[simp] theorem holds_entry (s : Kernel) (space : SpacePtr) (h : ℕ) :
    s.holds (.entry space h) = (s.tables space).assetAt h := rfl

@[simp] theorem holds_mapping (s : Kernel) (p : AssetPtr) :
    s.holds (.mapping p) = mappedBy s.kindAt p := rfl

theorem kindAt_setAsset (s : Kernel) (a : AssetPtr) (x : Option Asset) :
    (s.setAsset a x).kindAt = Function.update s.kindAt a (x.map Asset.kind) := by
  funext b
  unfold kindAt setAsset
  rcases eq_or_ne b a with rfl | hb
  · simp
  · simp [hb]

theorem kindAt_allocateAsset (s : Kernel) (space : SpacePtr) (kind : AssetKind) :
    (s.allocateAsset space kind).kindAt = Function.update s.kindAt s.nextPtr (some kind) :=
  kindAt_setAsset _ _ _

theorem kindAt_eq_some {s : Kernel} {a : AssetPtr} {k : AssetKind} :
    s.kindAt a = some k ↔ ∃ n, s.heap a = some ⟨n, k⟩ := by
  unfold kindAt
  constructor
  · intro h
    obtain ⟨x, hx, rfl⟩ := Option.map_eq_some_iff.mp h
    exact ⟨x.refCount, hx⟩
  · rintro ⟨n, hn⟩
    rw [hn]
    rfl

theorem kindAt_eq_none {s : Kernel} {a : AssetPtr} : s.kindAt a = none ↔ s.heap a = none :=
  Option.map_eq_none_iff

end Kernel

/-- One reference to `a` in nobody's hands. -/
def one (a : AssetPtr) : AssetPtr → ℕ := fun b => if b = a then 1 else 0

structure Refs (loc : AssetPtr → ℕ) (s : Kernel) : Prop where
  live : ∀ d a, s.holds d = some a → s.heap a ≠ none
  counted : ∀ a x, s.heap a = some x → ∃ n, x.refCount = n + loc a ∧ Counted s.holds a n
  bound : ∀ a, s.heap a ≠ none → a < s.nextPtr
  memory : ∀ p a, mappedBy s.kindAt p = some a → ∃ k, s.kindAt a = some k ∧ k.isMemory = true

section Refs

variable {s s' : Kernel} {a : AssetPtr}

/-- A step that changes no counter and takes no reference keeps `Refs`. -/
theorem Refs.congr {loc : AssetPtr → ℕ} (h : Refs loc s) (hheap : s'.heap = s.heap)
    (htables : s'.tables = s.tables) (hnext : s'.nextPtr = s.nextPtr) : Refs loc s' := by
  have hkind : s'.kindAt = s.kindAt := by
    funext b
    unfold Kernel.kindAt
    rw [hheap]
  have hholds : s'.holds = s.holds := by
    funext d
    cases d with
    | entry space k =>
      unfold Kernel.holds
      rw [htables]
    | mapping p =>
      unfold Kernel.holds
      rw [hkind]
  exact ⟨by rw [hholds, hheap]; exact h.live, by rw [hholds, hheap]; exact h.counted,
    by rw [hheap, hnext]; exact h.bound, by rw [hkind]; exact h.memory⟩

theorem Refs.heap_nextPtr {loc : AssetPtr → ℕ} (h : Refs loc s) : s.heap s.nextPtr = none := by
  by_contra hne
  exact Nat.lt_irrefl _ (h.bound _ hne)

theorem Refs.counted_zero {loc : AssetPtr → ℕ} (h : Refs loc s) (ha : s.heap a = none) : Counted s.holds a 0 := by
  intro L _ hL
  cases L with
  | nil => exact Nat.le_refl 0
  | cons d L => exact absurd ha (h.live d a (hL d List.mem_cons_self))

theorem one_self (a : AssetPtr) : one a a = 1 := if_pos rfl

theorem one_of_ne {b : AssetPtr} (h : b ≠ a) : one a b = 0 := if_neg h

theorem holds_moveOut {space : SpacePtr} {k : ℕ} {d : Holder}
    (hd : (s.setTable space ((s.tables space).moveOut k)).holds d = some a) :
    s.holds d = some a ∧ d ≠ .entry space k := by
  cases d with
  | mapping p => exact ⟨hd, nofun⟩
  | entry sp k' =>
    rw [Kernel.holds_entry] at hd ⊢
    rw [Kernel.assetAt_remove] at hd
    split at hd
    · cases hd
    · rename_i hne
      refine ⟨hd, ?_⟩
      rintro ⟨⟩
      exact hne ⟨rfl, rfl⟩

/-- An entry is taken out of a table. -/
theorem refs_moveOut (h : Refs (fun _ => 0) s) {space : SpacePtr} {k : ℕ}
    (ha : (s.tables space).assetAt k = some a) :
    Refs (one a) (s.setTable space ((s.tables space).moveOut k)) := by
  refine ⟨fun d b hd => h.live d b (holds_moveOut hd).1, ?_, h.bound, h.memory⟩
  intro b x hx
  obtain ⟨n, hn, hc⟩ := h.counted b x hx
  rcases eq_or_ne b a with rfl | hb
  · have hheld : s.holds (.entry space k) = some b := ha
    obtain ⟨m, rfl⟩ := hc.pos hheld
    exact ⟨m, by rw [one_self, hn], hc.remove hheld fun d hd => holds_moveOut hd⟩
  · exact ⟨n, by rw [one_of_ne hb, hn], hc.mono fun d hd => (holds_moveOut hd).1⟩

/-- Who refers to what does not depend on the counters. -/
theorem holds_setAsset {x : Option Asset} (hx : x.map Asset.kind = s.kindAt a) :
    (s.setAsset a x).holds = s.holds := by
  have hkind : (s.setAsset a x).kindAt = s.kindAt := by
    rw [Kernel.kindAt_setAsset, hx, Function.update_eq_self]
  funext d
  cases d with
  | entry space k => rfl
  | mapping p =>
    unfold Kernel.holds
    rw [hkind]

/-- A new counter for `a`. -/
theorem refs_setCount {loc loc' : AssetPtr → ℕ} (h : Refs loc s) {x : Asset} (hx : s.heap a = some x)
    {c : ℕ} (hloc : ∀ b, b ≠ a → loc' b = loc b)
    (hc : ∀ n, x.refCount = n + loc a → Counted s.holds a n →
      ∃ n', c = n' + loc' a ∧ Counted s.holds a n') :
    Refs loc' (s.setAsset a (some { x with refCount := c })) := by
  have hkind : (some { x with refCount := c }).map Asset.kind = s.kindAt a := by
    unfold Kernel.kindAt
    rw [hx]
    rfl
  have hholds := holds_setAsset hkind
  have hkinds : (s.setAsset a (some { x with refCount := c })).kindAt = s.kindAt := by
    rw [Kernel.kindAt_setAsset, hkind, Function.update_eq_self]
  have hne : ∀ b, (s.setAsset a (some { x with refCount := c })).heap b ≠ none ↔ s.heap b ≠ none := by
    intro b
    rw [Ne, ← Kernel.kindAt_eq_none, hkinds, Kernel.kindAt_eq_none]
  refine ⟨?_, ?_, fun b hb => h.bound b ((hne b).mp hb), by rw [hkinds]; exact h.memory⟩
  · intro d b hd
    rw [hholds] at hd
    exact (hne b).mpr (h.live d b hd)
  · intro b y hy
    rw [hholds]
    unfold Kernel.setAsset at hy
    dsimp only at hy
    rcases eq_or_ne b a with rfl | hb
    · rw [Function.update_self, Option.some_inj] at hy
      obtain ⟨n, hn, hcount⟩ := h.counted b x hx
      rw [← hy]
      exact hc n hn hcount
    · rw [Function.update_of_ne hb] at hy
      rw [hloc b hb]
      exact h.counted b y hy

/-- Another kind for `a`, that refers to the same. -/
theorem refs_setKind {loc : AssetPtr → ℕ} (h : Refs loc s) {n : ℕ} {k k' : AssetKind}
    (hx : s.heap a = some ⟨n, k⟩) (href : k'.memoryOf = k.memoryOf) (hmem : k'.isMemory = k.isMemory) :
    Refs loc (s.setAsset a (some ⟨n, k'⟩)) := by
  have hk : s.kindAt a = some k := Kernel.kindAt_eq_some.mpr ⟨n, hx⟩
  have hkinds : (s.setAsset a (some ⟨n, k'⟩)).kindAt = Function.update s.kindAt a (some k') :=
    Kernel.kindAt_setAsset _ _ _
  have hmap : ∀ p, mappedBy (s.setAsset a (some ⟨n, k'⟩)).kindAt p = mappedBy s.kindAt p := by
    intro p
    rw [hkinds]
    rcases eq_or_ne p a with rfl | hp
    · unfold mappedBy
      rw [Function.update_self, hk]
      exact href
    · exact mappedBy_update_of_ne hp _
  have hholds : (s.setAsset a (some ⟨n, k'⟩)).holds = s.holds := by
    funext d
    cases d with
    | entry space k => rfl
    | mapping p => exact hmap p
  have hheap : ∀ b, (s.setAsset a (some ⟨n, k'⟩)).heap b = if b = a then some ⟨n, k'⟩ else s.heap b :=
    fun b => Function.update_apply _ _ _ _
  have hne : ∀ b, (s.setAsset a (some ⟨n, k'⟩)).heap b ≠ none ↔ s.heap b ≠ none := by
    intro b
    rw [hheap]
    split
    · rename_i hb
      rw [hb, hx]
      exact iff_of_true (Option.some_ne_none _) (Option.some_ne_none _)
    · rfl
  refine ⟨?_, ?_, fun b hb => h.bound b ((hne b).mp hb), ?_⟩
  · intro d b hd
    rw [hholds] at hd
    exact (hne b).mpr (h.live d b hd)
  · intro b y hy
    rw [hholds]
    rw [hheap] at hy
    split at hy
    · rename_i hb
      rw [Option.some_inj] at hy
      rw [← hy, hb]
      exact h.counted a ⟨n, k⟩ hx
    · exact h.counted b y hy
  · intro p b hp
    rw [hmap] at hp
    obtain ⟨kb, hkb, hisMem⟩ := h.memory p b hp
    rw [hkinds]
    rcases eq_or_ne b a with rfl | hb
    · rw [hk, Option.some_inj] at hkb
      exact ⟨k', Function.update_self _ _ _, by rw [hmem, hkb, hisMem]⟩
    · exact ⟨kb, by rw [Function.update_of_ne hb, hkb], hisMem⟩

/-- `Asset::deref` of a reference that is not the last. -/
theorem refs_dec (h : Refs (one a) s) {x : Asset} (hx : s.heap a = some x) :
    Refs (fun _ => 0) (s.setAsset a (some { x with refCount := x.refCount - 1 })) := by
  refine refs_setCount h hx (fun b hb => (one_of_ne hb).symm) fun n hn hc => ⟨n, ?_, hc⟩
  rw [hn, one_self]
  rfl

/-- The last reference to an asset is dropped: nobody holds it. -/
theorem Refs.unheld (h : Refs (one a) s) {x : Asset} (hx : s.heap a = some x)
    (hlast : x.refCount = 1) (d : Holder) : s.holds d ≠ some a := by
  obtain ⟨n, hn, hc⟩ := h.counted a x hx
  rw [one_self] at hn
  obtain rfl : n = 0 := by omega
  exact hc.holds_ne d

/-- The asset is deleted; the reference it held, if it was a mapping, is in
nobody's hands. -/
theorem refs_delete (h : Refs (one a) s) (hun : ∀ d, s.holds d ≠ some a) :
    Refs (fun b => if mappedBy s.kindAt a = some b then 1 else 0) (s.setAsset a none) := by
  have hkinds := s.kindAt_setAsset a none
  have hholds : ∀ d b, (s.setAsset a none).holds d = some b → s.holds d = some b ∧ d ≠ .mapping a := by
    intro d b hd
    cases d with
    | entry space k => exact ⟨hd, nofun⟩
    | mapping p =>
      rw [Kernel.holds_mapping, hkinds] at hd
      rcases eq_or_ne p a with rfl | hp
      · unfold mappedBy at hd
        simp at hd
      · rw [mappedBy_update_of_ne hp] at hd
        refine ⟨hd, ?_⟩
        rintro ⟨⟩
        exact hp rfl
  have hheap : ∀ b, b ≠ a → (s.setAsset a none).heap b = s.heap b := fun b hb =>
    Function.update_of_ne hb _ _
  have hself : (s.setAsset a none).heap a = none := Function.update_self _ _ _
  refine ⟨?_, ?_, ?_, ?_⟩
  · intro d b hd
    have hb : b ≠ a := by
      rintro rfl
      exact hun d (hholds d b hd).1
    rw [hheap b hb]
    exact h.live d b (hholds d b hd).1
  · intro b y hy
    have hb : b ≠ a := by
      rintro rfl
      rw [hself] at hy
      cases hy
    rw [hheap b hb] at hy
    obtain ⟨n, hn, hc⟩ := h.counted b y hy
    rw [one_of_ne hb, Nat.add_zero] at hn
    by_cases hheld : mappedBy s.kindAt a = some b
    · have hheld' : s.holds (.mapping a) = some b := hheld
      obtain ⟨m, rfl⟩ := hc.pos hheld'
      exact ⟨m, by rw [if_pos hheld, hn], hc.remove hheld' fun d hd => hholds d b hd⟩
    · exact ⟨n, by rw [if_neg hheld, hn, Nat.add_zero], hc.mono fun d hd => (hholds d b hd).1⟩
  · intro b hb
    rcases eq_or_ne b a with rfl | hne
    · exact absurd hself hb
    · rw [hheap b hne] at hb
      exact h.bound b hb
  · intro p b hp
    obtain ⟨hp', -⟩ := hholds (.mapping p) b hp
    have hb : b ≠ a := by
      rintro rfl
      exact hun _ hp'
    rw [hkinds, Function.update_of_ne hb]
    exact h.memory p b hp'

/-- The last reference to a mapping is dropped: the one it has to its memory is
in nobody's hands. -/
theorem refs_dropMapping (h : Refs (one a) s) {start stop : ℕ} {physicalMem : AssetRef}
    {writable executable : Bool} {m : AssetPtr}
    (hx : s.heap a = some ⟨1, .mapping start stop physicalMem writable executable⟩)
    (hm : physicalMem.asset = some m) : Refs (one m) (s.setAsset a none) := by
  have hmap : mappedBy s.kindAt a = some m := by
    unfold mappedBy Kernel.kindAt
    rw [hx]
    exact hm
  have hone : (fun b => if mappedBy s.kindAt a = some b then 1 else 0) = one m := by
    funext b
    unfold one
    simp only [hmap, Option.some_inj, eq_comm]
  rw [← hone]
  exact refs_delete h (h.unheld hx rfl)

/-- `Asset::own`. -/
theorem refs_own (h : Refs (fun _ => 0) s) {x : Asset} (hx : s.heap a = some x) :
    Refs (one a) (s.own a) := by
  unfold Kernel.own
  rw [hx]
  refine refs_setCount h hx (fun b hb => one_of_ne hb) fun n hn hc => ⟨n, ?_, hc⟩
  rw [hn, one_self]

/-- A new asset has two holders: its entry, and itself if it is a mapping. -/
theorem holds_allocateAsset {kind : AssetKind} {space : SpacePtr} {d : Holder}
    (hd : (s.allocateAsset space kind).holds d = some a) :
    s.holds d = some a ∨ (d = .entry space ((s.tables space).allocUid + 1) ∧ a = s.nextPtr) ∨
      (d = .mapping s.nextPtr ∧ kind.memoryOf = some a) := by
  cases d with
  | mapping p =>
    rw [Kernel.holds_mapping, Kernel.kindAt_allocateAsset] at hd
    rcases eq_or_ne p s.nextPtr with rfl | hp
    · unfold mappedBy at hd
      rw [Function.update_self] at hd
      exact .inr (.inr ⟨rfl, hd⟩)
    · rw [mappedBy_update_of_ne hp] at hd
      exact .inl hd
  | entry sp k =>
    rw [Kernel.holds_entry, Kernel.assetAt_allocate] at hd
    split at hd
    · rename_i hnew
      exact .inr (.inl ⟨by rw [hnew.1, hnew.2], (Option.some.inj hd).symm⟩)
    · exact .inl hd

/-- A new asset in the table of a space takes the reference it is made with. -/
theorem refs_allocate {kind : AssetKind} {space : SpacePtr}
    (hmem : ∀ m, kind.memoryOf = some m → ∃ k, s.kindAt m = some k ∧ k.isMemory = true)
    (h : Refs (fun b => if kind.memoryOf = some b then 1 else 0) s) :
    Refs (fun _ => 0) (s.allocateAsset space kind) := by
  have hfree := h.heap_nextPtr
  have halive : ∀ m, kind.memoryOf = some m → m ≠ s.nextPtr := by
    rintro m hm rfl
    obtain ⟨k, hk, -⟩ := hmem _ hm
    rw [Kernel.kindAt_eq_none.mpr hfree] at hk
    cases hk
  refine ⟨fun d b hd => ?_, fun b y hy => ?_, fun b hb => ?_, fun p b hp => ?_⟩
  · rcases eq_or_ne b s.nextPtr with rfl | hb
    · rw [Kernel.heap_allocateAsset]
      exact Option.some_ne_none _
    · rw [Kernel.heap_allocateAsset_of_ne _ _ _ hb]
      rcases holds_allocateAsset hd with hd' | ⟨-, hb'⟩ | ⟨-, hm⟩
      · exact h.live d b hd'
      · exact absurd hb' hb
      · obtain ⟨k, hk, -⟩ := hmem b hm
        rw [Ne, ← Kernel.kindAt_eq_none, hk]
        exact Option.some_ne_none k
  · rcases eq_or_ne b s.nextPtr with rfl | hb
    · rw [Kernel.heap_allocateAsset, Option.some_inj] at hy
      refine ⟨1, by rw [← hy], (h.counted_zero hfree).add (d := .entry space ((s.tables space).allocUid + 1)) ?_⟩
      intro d hd hne
      rcases holds_allocateAsset hd with hd' | ⟨hd', -⟩ | ⟨-, hm⟩
      · exact hd'
      · exact absurd hd' hne
      · exact absurd rfl (halive _ hm)
    · rw [Kernel.heap_allocateAsset_of_ne _ _ _ hb] at hy
      obtain ⟨n, hn, hc⟩ := h.counted b y hy
      by_cases hm : kind.memoryOf = some b
      · rw [if_pos hm] at hn
        refine ⟨n + 1, hn, hc.add (d := .mapping s.nextPtr) fun d hd hne => ?_⟩
        rcases holds_allocateAsset hd with hd' | ⟨-, hb'⟩ | ⟨hd', -⟩
        · exact hd'
        · exact absurd hb' hb
        · exact absurd hd' hne
      · rw [if_neg hm] at hn
        refine ⟨n, hn, hc.mono fun d hd => ?_⟩
        rcases holds_allocateAsset hd with hd' | ⟨-, hb'⟩ | ⟨-, hm'⟩
        · exact hd'
        · exact absurd hb' hb
        · exact absurd hm' hm
  · rcases eq_or_ne b s.nextPtr with rfl | hne
    · exact Nat.lt_succ_self _
    · rw [Kernel.heap_allocateAsset_of_ne _ _ _ hne] at hb
      exact Nat.lt_succ_of_lt (h.bound b hb)
  · have hb : b ≠ s.nextPtr ∧ ∃ k, s.kindAt b = some k ∧ k.isMemory = true := by
      rcases holds_allocateAsset (d := .mapping p) hp with hp' | ⟨hd, -⟩ | ⟨-, hm⟩
      · refine ⟨?_, h.memory p b hp'⟩
        rintro rfl
        exact h.live _ _ hp' hfree
      · cases hd
      · exact ⟨halive b hm, hmem b hm⟩
    rw [Kernel.kindAt_allocateAsset, Function.update_of_ne hb.1]
    exact hb.2

/-- An entry goes from one table to another. -/
theorem refs_move (h : Refs (fun _ => 0) s) {src dst : SpacePtr} {k : ℕ} {r : AssetRef}
    (hr : (s.tables src).assets k = some r) {moved : AssetRef} {tables : Spaces}
    (hmove : assetMove (some src) (some dst) r s.tables = .ok (moved, tables)) :
    Refs (fun _ => 0) { s with tables } := by
  obtain ⟨w', hw', -, hat⟩ := assetMove_ok dst hr
  rw [hmove] at hw'
  simp only [Except.ok.injEq, Prod.mk.injEq] at hw'
  obtain ⟨-, rfl⟩ := hw'
  have hheld : s.holds (.entry src k) = r.asset := by
    rw [Kernel.holds_entry]
    unfold AssetTable.assetAt
    rw [hr]
    rfl
  have hholds : ∀ d b, Kernel.holds { s with tables } d = some b →
      (d = .entry dst ((s.tables dst).allocUid + 1) ∧ r.asset = some b) ∨
      (s.holds d = some b ∧ d ≠ .entry src k) := by
    intro d b hd
    cases d with
    | mapping p => exact .inr ⟨hd, nofun⟩
    | entry sp k' =>
      rw [Kernel.holds_entry] at hd
      dsimp only at hd
      rw [hat] at hd
      split at hd
      · cases hd
      · rename_i hne
        split at hd
        · rename_i hnew
          exact .inl ⟨by rw [hnew.1, hnew.2], hd⟩
        · refine .inr ⟨hd, ?_⟩
          rintro ⟨⟩
          exact hne ⟨rfl, rfl⟩
  refine ⟨?_, ?_, h.bound, h.memory⟩
  · intro d b hd
    rcases hholds d b hd with ⟨-, hb⟩ | ⟨hd', -⟩
    · exact h.live (.entry src k) b (hheld.trans hb)
    · exact h.live d b hd'
  · intro b y hy
    obtain ⟨n, hn, hc⟩ := h.counted b y hy
    refine ⟨n, hn, ?_⟩
    by_cases hb : r.asset = some b
    · refine hc.exchange (.entry src k) (.entry dst ((s.tables dst).allocUid + 1))
        (hheld.trans hb) fun d hd hne => ?_
      rcases hholds d b hd with ⟨hd', -⟩ | hd'
      · exact absurd hd' hne
      · exact hd'
    · refine hc.mono fun d hd => ?_
      rcases hholds d b hd with ⟨-, hb'⟩ | ⟨hd', -⟩
      · exact absurd hb' hb
      · exact hd'

end Refs
end WingOS
