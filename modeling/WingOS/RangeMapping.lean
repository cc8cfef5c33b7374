/-
# Mapping a range

`VmmSpace::map` (`kernel/x86_64/paging.cpp`) asks for two ranges of one length
that is a number of pages, and maps page after page. The table drops the low
bits of both addresses, so what is mapped are the pages that the starts are in.

The call does what it is asked for just if the two starts have the same offset
in their page and that offset is 0, or the page before the first byte and the
page of the last byte were mapped like that already (`map_exact_iff`); and the
range must be one the processor can address at all.

Key definitions: `Canonical`, `translate`, `Mapped`, `MapExact`, `Mappable`.
Key theorems: `mapPages_spec`, `translate_eq`, `map_exact_iff`.
-/
import WingOS.MissingTables

namespace WingOS

/-- The addresses the processor walks the tables for. -/
def Canonical (a : ℕ) : Prop := a < 2 ^ 47 ∨ 2 ^ 64 - 2 ^ 47 ≤ a ∧ a < 2 ^ 64

instance (a : ℕ) : Decidable (Canonical a) := inferInstanceAs (Decidable (_ ∨ _ ∧ _))

/-- What an address is translated to, and the rights there. -/
structure Translated where
  addr : ℕ
  user : Bool
  writeable : Bool
deriving DecidableEq

/-- The translation of the processor. -/
def translate (frames : Frames) (root a : ℕ) : Option Translated :=
  if Canonical a then
    (walk frames a root).bind fun e =>
      (effective frames a 4 root).map fun (user, writeable) =>
        ⟨e.address * 4096 + a % 4096, user, writeable⟩
  else none

/-- The addresses of `virt` lead to those of `phys`, with the rights that were
asked for, and nothing else has changed. -/
def MapExact (root : ℕ) (v v' : Vmm) (virt phys : Range) (flags : PageFlags) : Prop :=
  (∀ a, virt.start ≤ a → a < virt.stop → translate v'.frames root a =
    some ⟨phys.start + (a - virt.start), flags.user, flags.writeable⟩) ∧
  ∀ a, ¬ (virt.start ≤ a ∧ a < virt.stop) → translate v'.frames root a = translate v.frames root a

/-- The addresses of the range are in one half. -/
def InHalf (virt : Range) : Prop := virt.stop ≤ 2 ^ 47 ∨ 2 ^ 64 - 2 ^ 47 ≤ virt.start

/-- The ranges for which `map` does just that. -/
def Mappable (root : ℕ) (v : Vmm) (virt phys : Range) (flags : PageFlags) : Prop :=
  virt.start = virt.stop ∨
    InHalf virt ∧ virt.start % 4096 = phys.start % 4096 ∧
    (virt.start % 4096 = 0 ∨
      translate v.frames root (virt.start - 1) = some ⟨phys.start - 1, flags.user, flags.writeable⟩ ∧
      translate v.frames root (virt.stop - 1) = some ⟨phys.stop - 1, flags.user, flags.writeable⟩)

/-! ### Pages -/

/-- The bits of an address that a walk looks at. -/
def pageNo (a : ℕ) : ℕ := a / 4096 % 2 ^ 36

/-- The present entry at the end of the walk for an address. -/
def entryOf (root : ℕ) (v : Vmm) (a : ℕ) : Option Page := leafAt v.frames root (slots a 4) (slot 1 a)

theorem slots_eq_iff (a b : ℕ) : slots a 4 = slots b 4 ∧ slot 1 a = slot 1 b ↔ pageNo a = pageNo b := by
  simp only [slots, slot, tableIndex, List.cons.injEq, Fin.mk.injEq, and_true, pageNo]
  omega

theorem pageNo_eq_iff {a b : ℕ} (ha : Canonical a) (hb : Canonical b) :
    pageNo a = pageNo b ↔ a / 4096 = b / 4096 := by
  unfold Canonical at ha hb
  unfold pageNo
  omega

section Entries

variable {p₀ : Pmm} {root : ℕ} {v v' : Vmm} {a b : ℕ}

theorem entryOf_congr (h : pageNo a = pageNo b) : entryOf root v a = entryOf root v b := by
  obtain ⟨hslots, hslot⟩ := (slots_eq_iff a b).mpr h
  unfold entryOf
  rw [hslots, hslot]

/-- The rights along the walk are those of its last entry. -/
theorem translate_eq (h : Tables p₀ root v) (a : ℕ) : translate v.frames root a =
    if Canonical a then (entryOf root v a).map fun e => ⟨e.address * 4096 + a % 4096, e.user, e.writeable⟩
    else none := by
  unfold translate
  split
  · rw [walk_eq, effective_eq h a (p := []) rfl (tableAt_nil _ _), List.nil_append]
    change (entryOf root v a).bind _ = _
    cases he : entryOf root v a with
    | none => rfl
    | some e =>
      have he' : leafAt v.frames root (slots a 4) (slot 1 a) = some e := he
      rw [Option.bind_some, he']
      rfl
  · rfl

/-- Two bytes of one page. -/
theorem translate_same_page (h : Tables p₀ root v) (ha : Canonical a) (hb : Canonical b)
    (hpage : a / 4096 = b / 4096) {x : ℕ} {user writeable : Bool}
    (htr : translate v.frames root a = some ⟨x + a % 4096, user, writeable⟩) :
    translate v.frames root b = some ⟨x + b % 4096, user, writeable⟩ := by
  rw [translate_eq h, if_pos ha, Option.map_eq_some_iff] at htr
  obtain ⟨e, he, heq⟩ := htr
  simp only [Translated.mk.injEq] at heq
  obtain ⟨haddr, huser, hwriteable⟩ := heq
  rw [translate_eq h, if_pos hb, ← entryOf_congr ((pageNo_eq_iff ha hb).mpr hpage), he, Option.map_some,
    huser, hwriteable, Nat.add_right_cancel haddr]

end Entries

/-! ### The loop -/

/-- `j` pages from the `k`-th on are mapped, and no others. -/
structure Mapped (root virtBegin physBegin : ℕ) (flags : PageFlags) (k j : ℕ) (v v' : Vmm) : Prop where
  untouched : ∀ a, (∀ i, k ≤ i → i < k + j → pageNo a ≠ pageNo ((virtBegin + 4096 * i) % 2 ^ 64)) →
    entryOf root v' a = entryOf root v a
  touched : ∀ a i, k ≤ i → i < k + j → pageNo a = pageNo ((virtBegin + 4096 * i) % 2 ^ 64) →
    (∀ l, i < l → l < k + j → pageNo a ≠ pageNo ((virtBegin + 4096 * l) % 2 ^ 64)) →
    entryOf root v' a = some (pageCreate flags ((physBegin + 4096 * i) % 2 ^ 64))

section Loop

variable {p₀ : Pmm} {root virtBegin physBegin : ℕ} {flags : PageFlags}

theorem Mapped.none (k : ℕ) {v v' : Vmm} (h : ∀ a, entryOf root v' a = entryOf root v a) :
    Mapped root virtBegin physBegin flags k 0 v v' :=
  ⟨fun a _ => h a, fun _ _ h1 h2 => by omega⟩

/-- One page, and then the others. -/
theorem Mapped.cons {k j : ℕ} {v v₁ v' : Vmm}
    (hfirst : ∀ a, entryOf root v₁ a = if pageNo a = pageNo ((virtBegin + 4096 * k) % 2 ^ 64) then
      some (pageCreate flags ((physBegin + 4096 * k) % 2 ^ 64)) else entryOf root v a)
    (h : Mapped root virtBegin physBegin flags (k + 1) j v₁ v') :
    Mapped root virtBegin physBegin flags k (j + 1) v v' where
  untouched := by
    intro a ha
    rw [h.untouched a fun i h1 h2 => ha i (by omega) (by omega), hfirst a,
      if_neg (ha k (Nat.le_refl k) (by omega))]
  touched := by
    intro a i h1 h2 hpage hlast
    by_cases hik : i = k
    · subst hik
      rw [h.untouched a fun l h3 h4 => hlast l (by omega) (by omega), hfirst a, if_pos hpage]
    · exact h.touched a i (by omega) (by omega) hpage fun l h3 h4 => hlast l h3 (by omega)

/-- The call of `map` for one page. -/
theorem entryOf_mapPage {vaddr paddr : ℕ} {v v' : Vmm} {res : Except String Unit}
    (h : Tables p₀ root v) (hmap : v.mapPage vaddr (pageCreate flags paddr) 4 root = (res, v')) :
    Tables p₀ root v' ∧ (res ≠ .ok () → entryOf root v vaddr = none) ∧ ∀ a, entryOf root v' a =
      if res = .ok () ∧ pageNo a = pageNo vaddr then some (pageCreate flags paddr) else entryOf root v a := by
  obtain ⟨hT, hdone⟩ := map_root h rfl hmap
  refine ⟨hT, fun hres => ?_, fun a => ?_⟩
  · cases res with
    | ok u => exact absurd rfl hres
    | error e => exact leafAt_of_mapPage_error h rfl hmap
  unfold entryOf
  by_cases hres : res = .ok ()
  · rw [hdone.leaf_ok hres _ _ (slots_length a 3)]
    exact if_congr ((slots_eq_iff a vaddr).trans ⟨fun hp => ⟨hres, hp⟩, And.right⟩) rfl rfl
  · rw [hdone.leaf_error hres _ _ (slots_length a 3), if_neg fun hc => hres hc.1]

/-- **The loop** maps some first pages, and all if it succeeds; the page at which
it stops is not mapped. -/
theorem mapPages_spec : ∀ {n k : ℕ} {v v' : Vmm} {res : Except String Unit}, Tables p₀ root v →
    v.mapPages root virtBegin physBegin flags n k = (res, v') →
    Tables p₀ root v' ∧ ∃ j ≤ n, (res = .ok () ↔ j = n) ∧
      (j < n → entryOf root v' ((virtBegin + 4096 * (k + j)) % 2 ^ 64) = none) ∧
      Mapped root virtBegin physBegin flags k j v v'
  | 0, k, v, v', res, h, hmap => by
    unfold Vmm.mapPages at hmap
    simp only [Prod.mk.injEq] at hmap
    obtain ⟨rfl, rfl⟩ := hmap
    exact ⟨h, 0, Nat.le_refl 0, ⟨fun _ => rfl, fun _ => rfl⟩, fun hc => absurd hc (Nat.lt_irrefl 0),
      .none k fun _ => rfl⟩
  | n + 1, k, v, v', res, h, hmap => by
    unfold Vmm.mapPages at hmap
    cases hfirst : v.mapPage ((virtBegin + 4096 * k) % 2 ^ 64)
        (pageCreate flags ((physBegin + 4096 * k) % 2 ^ 64)) 4 root with
    | mk res₁ v₁ =>
    obtain ⟨hT, habsent, hentry⟩ := entryOf_mapPage h hfirst
    rw [hfirst] at hmap
    cases res₁ with
    | error e =>
      simp only [Prod.mk.injEq] at hmap
      obtain ⟨rfl, rfl⟩ := hmap
      have hfailed : (.error e : Except String Unit) ≠ .ok () := fun hc => by cases hc
      have hsame : ∀ a, entryOf root v₁ a = entryOf root v a := by
        intro a
        rw [hentry a, if_neg fun hc => hfailed hc.1]
      exact ⟨hT, 0, Nat.zero_le _, ⟨fun hc => absurd hc hfailed, fun hc => by omega⟩,
        fun _ => (hsame _).trans (habsent hfailed), .none k hsame⟩
    | ok u =>
      obtain ⟨hT', j, hj, hiff, hstopped, hrest⟩ := mapPages_spec hT hmap
      refine ⟨hT', j + 1, by omega, hiff.trans (by omega), fun hlt => ?_, hrest.cons fun a => ?_⟩
      · rw [show k + (j + 1) = k + 1 + j by omega]
        exact hstopped (by omega)
      rw [hentry a]
      exact if_congr ⟨And.right, fun hp => ⟨rfl, hp⟩⟩ rfl rfl

end Loop

/-! ### Ranges -/

section Ranges

variable {root : ℕ} {v v' : Vmm} {virt phys : Range} {flags : PageFlags}

/-- A call that succeeds has gone through all pages of the range. -/
theorem map_ok {p₀ : Pmm} (h : Tables p₀ root v) (hv : virt.start ≤ virt.stop) (hp : phys.start ≤ phys.stop)
    (hmap : v.map root virt phys flags = (.ok (), v')) :
    Tables p₀ root v' ∧ ∃ n, virt.stop = virt.start + 4096 * n ∧ phys.stop = phys.start + 4096 * n ∧
      Mapped root virt.start phys.start flags 0 n v v' := by
  unfold Vmm.map at hmap
  split at hmap
  · simp at hmap
  · rename_i hlen
    split at hmap
    · simp at hmap
    · rename_i haligned
      have hvlen := Range.len_eq hv
      have hplen := Range.len_eq hp
      obtain ⟨hT, j, -, hiff, -, hmapped⟩ := mapPages_spec h hmap
      rw [hiff.mp rfl] at hmapped
      exact ⟨hT, _, by omega, by omega, hmapped⟩

theorem InHalf.canonical (h : InHalf virt) {a : ℕ} (ha : virt.start ≤ a) (hlt : a < virt.stop) :
    Canonical a := by
  have := virt.stop_lt
  unfold InHalf at h
  unfold Canonical
  omega

/-- A range with no other addresses is in one half. -/
theorem inHalf_of_canonical (hlt : virt.start < virt.stop)
    (h : ∀ a, virt.start ≤ a → a < virt.stop → Canonical a) : InHalf virt := by
  have h1 := h virt.start (Nat.le_refl _) hlt
  by_contra hno
  unfold InHalf at hno
  unfold Canonical at h1
  have h2 := h (2 ^ 47) (by omega) (by omega)
  unfold Canonical at h2
  omega

/-- The entries after some pages were mapped that the processor can address. -/
theorem entryOf_pages {virtBegin physBegin j : ℕ} {flags : PageFlags}
    (hm : Mapped root virtBegin physBegin flags 0 j v v')
    (hcan : ∀ i < j, Canonical (virtBegin + 4096 * i)) (hphys : physBegin + 4096 * j ≤ 2 ^ 64) {a : ℕ} (ha : Canonical a) :
    entryOf root v' a =
      if virtBegin / 4096 ≤ a / 4096 ∧ a / 4096 < virtBegin / 4096 + j then
        some (pageCreate flags (physBegin + 4096 * (a / 4096 - virtBegin / 4096)))
      else entryOf root v a := by
  have hpage : ∀ i < j, pageNo a = pageNo ((virtBegin + 4096 * i) % 2 ^ 64) ↔ a / 4096 = virtBegin / 4096 + i := by
    intro i hi
    have hc := hcan i hi
    have hlt : virtBegin + 4096 * i < 2 ^ 64 := by
      unfold Canonical at hc
      omega
    rw [Nat.mod_eq_of_lt hlt, pageNo_eq_iff ha hc]
    omega
  split
  · rename_i hin
    rw [hm.touched a (a / 4096 - virtBegin / 4096) (Nat.zero_le _) (by omega)
      ((hpage _ (by omega)).mpr (by omega)), Nat.mod_eq_of_lt (by omega)]
    intro l h1 h2 hc
    have := (hpage l (by omega)).mp hc
    omega
  · rename_i hout
    refine hm.untouched a fun i _ hi hc => hout ?_
    have := (hpage i (by omega)).mp hc
    omega

/-- The entries after the call, for a range in one half. -/
theorem entryOf_mapped {n : ℕ} (hhalf : InHalf virt) (hstop : virt.stop = virt.start + 4096 * n)
    (hphys : phys.stop = phys.start + 4096 * n)
    (hm : Mapped root virt.start phys.start flags 0 n v v') {a : ℕ} (ha : Canonical a) :
    entryOf root v' a =
      if virt.start / 4096 ≤ a / 4096 ∧ a / 4096 < virt.start / 4096 + n then
        some (pageCreate flags (phys.start + 4096 * (a / 4096 - virt.start / 4096)))
      else entryOf root v a := by
  have hplt := phys.stop_lt
  exact entryOf_pages hm (fun i hi => hhalf.canonical (Nat.le_add_right _ _) (by omega)) (by omega) ha

section Exact

variable {p₀ : Pmm} {n a : ℕ}

/-- What the pages of the range are translated to after the call. -/
theorem translate_inside (hT' : Tables p₀ root v') (hhalf : InHalf virt) (hstop : virt.stop = virt.start + 4096 * n)
    (hphys : phys.stop = phys.start + 4096 * n) (hm : Mapped root virt.start phys.start flags 0 n v v')
    (ha : Canonical a) (h1 : virt.start / 4096 ≤ a / 4096) (h2 : a / 4096 < virt.start / 4096 + n) :
    translate v'.frames root a =
      some ⟨(phys.start / 4096 + (a / 4096 - virt.start / 4096)) * 4096 + a % 4096, flags.user, flags.writeable⟩ := by
  rw [translate_eq hT', if_pos ha, entryOf_mapped hhalf hstop hphys hm ha, if_pos ⟨h1, h2⟩, Option.map_some]
  unfold pageCreate
  dsimp only
  rw [Nat.add_mul_div_left _ _ (by decide)]

theorem translate_outside (hT : Tables p₀ root v) (hT' : Tables p₀ root v') (hhalf : InHalf virt)
    (hstop : virt.stop = virt.start + 4096 * n) (hphys : phys.stop = phys.start + 4096 * n)
    (hm : Mapped root virt.start phys.start flags 0 n v v') (ha : Canonical a)
    (hno : ¬ (virt.start / 4096 ≤ a / 4096 ∧ a / 4096 < virt.start / 4096 + n)) :
    translate v'.frames root a = translate v.frames root a := by
  rw [translate_eq hT', translate_eq hT, if_pos ha, if_pos ha, entryOf_mapped hhalf hstop hphys hm ha, if_neg hno]

theorem mappable_of_mapExact (hT : Tables p₀ root v) (hT' : Tables p₀ root v')
    (hstop : virt.stop = virt.start + 4096 * n) (hphys : phys.stop = phys.start + 4096 * n)
    (hm : Mapped root virt.start phys.start flags 0 n v v') (h : MapExact root v v' virt phys flags) :
    Mappable root v virt phys flags := by
  obtain ⟨hrange, hrest⟩ := h
  have hvlt := virt.stop_lt
  by_cases hempty : virt.start = virt.stop
  · exact .inl hempty
  have hhalf : InHalf virt := by
    refine inHalf_of_canonical (by omega) fun a h1 h2 => ?_
    by_contra hno
    have := hrange a h1 h2
    rw [translate, if_neg hno] at this
    cases this
  have hcan := hhalf.canonical (Nat.le_refl virt.start) (by omega)
  have hfirst := hrange virt.start (Nat.le_refl _) (by omega)
  rw [translate_inside hT' hhalf hstop hphys hm hcan (Nat.le_refl _) (by omega)] at hfirst
  simp only [Option.some_inj, Translated.mk.injEq] at hfirst
  have hoffset : virt.start % 4096 = phys.start % 4096 := by omega
  refine .inr ⟨hhalf, hoffset, ?_⟩
  by_cases hzero : virt.start % 4096 = 0
  · exact .inl hzero
  · -- the byte before the range, and the last one, are on pages that are mapped only half
    have hbefore : Canonical (virt.start - 1) := by
      unfold Canonical at hcan ⊢
      omega
    have hlast : Canonical (virt.stop - 1) := hhalf.canonical (by omega) (by omega)
    refine .inr ⟨?_, ?_⟩
    · rw [← hrest (virt.start - 1) (by omega),
        translate_inside hT' hhalf hstop hphys hm hbefore (by omega) (by omega)]
      congr 2
      omega
    · rw [← translate_outside hT hT' hhalf hstop hphys hm hlast (by omega), hrange (virt.stop - 1) (by omega) (by omega)]
      congr 2
      omega

theorem mapExact_of_mappable (hT : Tables p₀ root v) (hT' : Tables p₀ root v')
    (hstop : virt.stop = virt.start + 4096 * n) (hphys : phys.stop = phys.start + 4096 * n)
    (hm : Mapped root virt.start phys.start flags 0 n v v') (h : Mappable root v virt phys flags) :
    MapExact root v v' virt phys flags := by
  have hvlt := virt.stop_lt
  obtain hempty | ⟨hhalf, hoffset, hedges⟩ := h
  · obtain rfl : n = 0 := by omega
    refine ⟨fun a h1 h2 => by omega, fun a _ => ?_⟩
    rw [translate_eq hT', translate_eq hT, hm.untouched a fun i h1 h2 => by omega]
  refine ⟨fun a h1 h2 => ?_, fun a hno => ?_⟩
  · have ha := hhalf.canonical h1 h2
    by_cases hk : a / 4096 < virt.start / 4096 + n
    · rw [translate_inside hT' hhalf hstop hphys hm ha (by omega) hk]
      congr 2
      omega
    · -- a byte of the last page, which was not mapped now
      have hlast : Canonical (virt.stop - 1) := hhalf.canonical (by omega) (by omega)
      rw [translate_outside hT hT' hhalf hstop hphys hm ha (by omega)]
      obtain hzero | ⟨-, hedge⟩ := hedges
      · omega
      · have hsplit : phys.stop - 1 = (phys.stop - 1 - (virt.stop - 1) % 4096) + (virt.stop - 1) % 4096 := by omega
        rw [hsplit] at hedge
        rw [translate_same_page hT hlast ha (by omega) hedge]
        congr 2
        omega
  · by_cases ha : Canonical a
    · by_cases hk : virt.start / 4096 ≤ a / 4096 ∧ a / 4096 < virt.start / 4096 + n
      · -- a byte of the first page, before the range
        obtain hzero | ⟨hedge, -⟩ := hedges
        · omega
        · have hbefore : Canonical (virt.start - 1) := by
            unfold InHalf at hhalf
            unfold Canonical at ha ⊢
            omega
          have hsplit : phys.start - 1 =
              (phys.start - 1 - (virt.start - 1) % 4096) + (virt.start - 1) % 4096 := by omega
          rw [hsplit] at hedge
          rw [translate_inside hT' hhalf hstop hphys hm ha hk.1 hk.2, translate_same_page hT hbefore ha (by omega) hedge]
          congr 2
          omega
      · exact translate_outside hT hT' hhalf hstop hphys hm ha hk
    · rw [translate, translate, if_neg ha, if_neg ha]

end Exact

/-- **A call of `VmmSpace::map` that succeeds** has mapped the range as it was
asked to, and nothing else, just if the range is mappable. -/
theorem map_exact_iff (h : TableState root v) (hv : virt.start ≤ virt.stop) (hp : phys.start ≤ phys.stop)
    (hmap : v.map root virt phys flags = (.ok (), v')) :
    MapExact root v v' virt phys flags ↔ Mappable root v virt phys flags := by
  obtain ⟨p₀, hT⟩ := soundTables_iff.mp h.sound
  obtain ⟨hT', n, hstop, hphys, hm⟩ := map_ok hT hv hp hmap
  exact ⟨mappable_of_mapExact hT hT' hstop hphys hm, mapExact_of_mappable hT hT' hstop hphys hm⟩

end Ranges

/-! ### A range that starts inside a page -/

/-- One page from the middle of the page at 4 MiB on. -/
def halfPage : Range := Range.fromBeginLen 0x400800 4096

def halfFrame : Range := Range.fromBeginLen 0x200800 4096

def halfMapped : Vmm := (smallVmm.map 0x108000 halfPage halfFrame ⟨true, true⟩).2

theorem map_halfPage : smallVmm.map 0x108000 halfPage halfFrame ⟨true, true⟩ = (.ok (), halfMapped) := by
  have hok : (smallVmm.map 0x108000 halfPage halfFrame ⟨true, true⟩).1.isOk = true := by decide +kernel
  unfold halfMapped
  cases h : smallVmm.map 0x108000 halfPage halfFrame ⟨true, true⟩ with
  | mk res v =>
    rw [h] at hok
    cases res with
    | ok u => rfl
    | error e => cases hok

/-- The last half of the range is not mapped. -/
theorem map_halfPage_inexact : TableState 0x108000 smallVmm ∧
    smallVmm.map 0x108000 halfPage halfFrame ⟨true, true⟩ = (.ok (), halfMapped) ∧
    ¬ MapExact 0x108000 smallVmm halfMapped halfPage halfFrame ⟨true, true⟩ := by
  refine ⟨.start start_smallVmm, map_halfPage, fun ⟨hrange, _⟩ => ?_⟩
  have hnone : translate halfMapped.frames 0x108000 0x401000 = none := by decide +kernel
  have hsome := hrange 0x401000 (by decide) (by decide)
  rw [hnone] at hsome
  cases hsome

theorem map_exact_iff_halfPage : TableState 0x108000 smallVmm ∧
    (MapExact 0x108000 smallVmm halfMapped halfPage halfFrame ⟨true, true⟩ ↔
      Mappable 0x108000 smallVmm halfPage halfFrame ⟨true, true⟩) :=
  ⟨.start start_smallVmm, map_exact_iff (.start start_smallVmm) (by decide) (by decide) map_halfPage⟩

end WingOS
