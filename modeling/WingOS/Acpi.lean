/-
# Walks over ACPI tables

`SdtFind` and `SdtForeach` (`hw/acpi/rsdt.hpp`) go over the addresses in an RSDT or
XSDT, `Madt::find_entry` and `Madt::foreach_entry` (`hw/acpi/madt.hpp`) over the
entries of a MADT, each of which has its length in its second byte. What they read is
recorded as places in the table; the tables that an SDT points to, and what a callback
does with an entry, are not part of it. A walk over entries stops at no bound of its
own, so it ends only where it has come to the end.

The length of a table is trusted: a length below that of the header wraps. `SdtForeach`
always copies 256 addresses, and goes through as many as the table says. An entry
of no length is visited for ever, and an entry that begins with the last byte of the
table has its length behind it (`acpi_inside_iff`).

Key definitions: `Sdt.find`, `Sdt.foreach`, `Madt.findEntry`, `Madt.foreachEntry`,
`Inside`, `AcpiInside`.
Key theorems: `find_inside_iff`, `foreach_inside_iff`, `findEntry_iff`,
`foreachEntry_iff`, `foreachEntry_wellFormed`, `acpi_inside_iff`.
-/
import WingOS.Lib.Bytes
import WingOS.Lib.MachineInt
import WingOS.Lib.Records

namespace WingOS
namespace Acpi

open Lib (Memory number Leads Reaches Visits)

/-- `sizeof(SdtHeader)`. -/
def sizeofSdtHeader : ℕ := 36

/-- `header.length`. -/
def length (t : Memory) : ℕ := number t 4 4

/-- The places of `header.length`. -/
def lengthPlaces : List ℕ := List.range' 4 4

/-- `child_len`. -/
def childLen (t : Memory) : ℕ := Lib.size (length t - sizeofSdtHeader)

/-- What a function returns, and which bytes of the table it reads. -/
structure Read (α : Type) where
  result : α
  reads : List ℕ

def Read.after {α : Type} (reads : List ℕ) (r : Read α) : Read α := { r with reads := reads ++ r.reads }

/-- The function ends, and reads only bytes below the length that the table states. -/
def Inside {α : Type} (t : Memory) (f : ℕ → Option (Read α)) : Prop :=
  ∃ n r, f n = some r ∧ ∀ x ∈ r.reads, x < length t

namespace Sdt

variable (t : Memory)

/-- `sizeof(table->entries[0])`: 4 in an RSDT, 8 in an XSDT. -/
inductive Child
  | rsdt | xsdt

def Child.size : Child → ℕ
  | .rsdt => 4
  | .xsdt => 8

variable (c : Child)

/-- How many entries the loops take the table to have. -/
def entryCount : ℕ := childLen t / c.size

/-- The place of an entry. -/
def entryPlace (i : ℕ) : ℕ := sizeofSdtHeader + i * c.size

/-- The loop of `SdtFind`, from the entry `i` on; `signed_` says whether the table at
an address has the signature. -/
def findFrom (signed_ : ℕ → Bool) : (n i : ℕ) → Option (Read (Except String ℕ))
  | 0, _ => none
  | n + 1, i =>
    if i < entryCount t c then
      let entry := number t (entryPlace c i) c.size
      let reads := lengthPlaces ++ List.range' (entryPlace c i) c.size
      if signed_ entry = true then some ⟨.ok entry, reads⟩
      else (findFrom signed_ n (i + 1)).map (Read.after reads)
    else some ⟨.error "Not found", lengthPlaces⟩

/-- `SdtFind`. -/
def find (signed_ : ℕ → Bool) (n : ℕ) : Option (Read (Except String ℕ)) := findFrom t c signed_ n 0

/-- `max_entries`. -/
def maxEntries : ℕ := 256

/-- An entry of the local copy, of which `beyond` is what is behind it. -/
def copied (beyond : ℕ → ℕ) (i : ℕ) : ℕ :=
  if i < maxEntries then number t (entryPlace c i) c.size else beyond i

/-- The loop of `SdtForeach`, from the entry `i` on: the tables that it calls back with, by
their indices and addresses. -/
def foreachFrom (beyond : ℕ → ℕ) : (n i : ℕ) → Option (Read (List (ℕ × ℕ)))
  | 0, _ => none
  | n + 1, i =>
    if i < entryCount t c then
      (foreachFrom beyond n (i + 1)).map fun r => ⟨(i, copied t c beyond i) :: r.result, lengthPlaces ++ r.reads⟩
    else some ⟨[], lengthPlaces⟩

/-- `SdtForeach`. -/
def foreach (beyond : ℕ → ℕ) (n : ℕ) : Option (Read (List (ℕ × ℕ))) :=
  (foreachFrom t c beyond n 0).map (Read.after (List.range' sizeofSdtHeader (maxEntries * c.size)))

/-- `SdtForeach` also reads only its copy. -/
def ForeachInside (beyond : ℕ → ℕ) : Prop :=
  ∃ n r, foreach t c beyond n = some r ∧ (∀ x ∈ r.reads, x < length t) ∧ ∀ e ∈ r.result, e.1 < maxEntries

end Sdt

namespace Madt

variable (m : Memory)

/-- Where `entries` is. -/
def begin_ : ℕ := sizeofSdtHeader + 4 * 2

/-- `len`. -/
def len : ℕ := Lib.size (childLen m - (4 * 2 : ℕ))

def end_ : ℕ := (begin_ + len m) % 2 ^ 64

/-- `entry->length`. -/
def entryLength (e : ℕ) : ℕ := (m (e + 1)).toNat

/-- The loop of `find_entry`, from the entry at `e` on. -/
def findEntryFrom (type : BitVec 8) : (n e : ℕ) → Option (Read (Except String ℕ))
  | 0, _ => none
  | n + 1, e =>
    if e < end_ m then
      if m e = type then some ⟨.ok e, lengthPlaces ++ [e]⟩
      else (findEntryFrom type n (e + entryLength m e)).map (Read.after (lengthPlaces ++ [e, e + 1]))
    else some ⟨.error "Madt: Entry not found", lengthPlaces⟩

/-- `find_entry`. -/
def findEntry (type : BitVec 8) (n : ℕ) : Option (Read (Except String ℕ)) := findEntryFrom m type n begin_

/-- The loop of `foreach_entry`: the entries that it calls `fn` with. -/
def foreachEntryFrom (type : BitVec 8) : (n e : ℕ) → Option (Read (List ℕ))
  | 0, _ => none
  | n + 1, e =>
    if e < end_ m then
      (foreachEntryFrom type n (e + entryLength m e)).map fun r =>
        ⟨if m e = type then e :: r.result else r.result, lengthPlaces ++ [e, e + 1] ++ r.reads⟩
    else some ⟨[], lengthPlaces⟩

/-- `foreach_entry`. -/
def foreachEntry (type : BitVec 8) (n : ℕ) : Option (Read (List ℕ)) := foreachEntryFrom m type n begin_

/-- The entries `l` tile the table, and have two bytes at least. -/
def WellFormed (l : List ℕ) : Prop :=
  Leads id (entryLength m) begin_ l (length m) ∧ ∀ e ∈ l, 2 ≤ entryLength m e

/-- `foreach_entry` calls `fn` once for each entry of the type, in order. -/
def CallsEach (type : BitVec 8) (l : List ℕ) : Prop :=
  ∃ n r, foreachEntry m type n = some r ∧ r.result = l.filter fun e => m e = type

/-- The walk over all entries reaches the entry at `e`. -/
def Entry (e : ℕ) : Prop := Reaches (entryLength m) (fun _ => (none : Option ℕ)) (length m) begin_ e

/-- The walks over the entries can be made: the table has its length, each entry that is reached has
its two bytes in the table, and some length. -/
structure Walkable : Prop where
  header : 8 ≤ length m
  entries : ∀ e, Entry m e → e + 1 < length m ∧ entryLength m e ≠ 0

end Madt

/-- **The walks over ACPI tables end inside the table**, and `foreach_entry` calls back as it
should where the entries tile the table. -/
structure AcpiInside (t : Memory) (c : Sdt.Child) (signed_ : ℕ → Bool) (beyond : ℕ → ℕ) (m : Memory)
    (type : BitVec 8) : Prop where
  find : Inside t (Sdt.find t c signed_)
  foreach : Sdt.ForeachInside t c beyond
  findEntry : Inside m (Madt.findEntry m type)
  foreachEntry : Inside m (Madt.foreachEntry m type)
  calls : ∀ l, Madt.WellFormed m l → Madt.CallsEach m type l

theorem length_lt (t : Memory) : length t < 2 ^ 32 := Lib.number_lt t 4 4

theorem lengthPlaces_inside {t : Memory} (h : 8 ≤ length t) : ∀ x ∈ lengthPlaces, x < length t := by
  intro x hx
  have hrange := List.mem_range'_1.mp hx
  omega

section Sdts

open Sdt

variable {t : Memory} {c : Child} {signed_ : ℕ → Bool} {beyond : ℕ → ℕ}

theorem Child.size_pos (c : Child) : 0 < c.size ∧ c.size ≤ 8 := by
  cases c with
  | rsdt => decide
  | xsdt => decide

theorem childLen_eq (h : sizeofSdtHeader ≤ length t) : childLen t = length t - sizeofSdtHeader := by
  have hlt := length_lt t
  unfold childLen
  rw [← Int.ofNat_sub h]
  exact Lib.size_eq (by omega)

/-- A length below that of the header wraps. -/
theorem childLen_wraps (h : length t < sizeofSdtHeader) : 2 ^ 63 ≤ childLen t := by
  unfold childLen Lib.size sizeofSdtHeader
  unfold sizeofSdtHeader at h
  omega

theorem entryCount_wraps (h : length t < sizeofSdtHeader) : maxEntries < entryCount t c := by
  have hwraps := childLen_wraps h
  have hsize := Child.size_pos c
  unfold entryCount maxEntries
  rw [Nat.lt_div_iff_mul_lt hsize.1]
  omega

/-- The entries that a table has are in it. -/
theorem entryPlace_inside (h : sizeofSdtHeader ≤ length t) {i x : ℕ} (hi : i < entryCount t c)
    (hx : x ∈ List.range' (entryPlace c i) c.size) : x < length t := by
  have hrange := List.mem_range'_1.mp hx
  have hchild := childLen_eq h
  have hmul : (i + 1) * c.size ≤ childLen t := by
    calc (i + 1) * c.size ≤ entryCount t c * c.size := Nat.mul_le_mul_right _ hi
      _ ≤ childLen t := Nat.div_mul_le_self _ _
  unfold entryPlace at hrange
  rw [Nat.succ_mul] at hmul
  omega

theorem findFrom_inside (h : sizeofSdtHeader ≤ length t) (i : ℕ) : Inside t fun n => findFrom t c signed_ n i := by
  have hlength : ∀ x ∈ lengthPlaces, x < length t := lengthPlaces_inside (by unfold sizeofSdtHeader at h; omega)
  generalize hleft : entryCount t c - i = left
  induction left generalizing i with
  | zero =>
    refine ⟨1, ⟨.error "Not found", lengthPlaces⟩, ?_, hlength⟩
    show findFrom t c signed_ 1 i = _
    rw [findFrom, if_neg (by omega)]
  | succ left ih =>
    have hi : i < entryCount t c := by omega
    obtain ⟨n, r, hrest, hreads⟩ := ih (i + 1) (by omega)
    have hhere : ∀ x ∈ lengthPlaces ++ List.range' (entryPlace c i) c.size, x < length t :=
      List.forall_mem_append.mpr ⟨hlength, fun x hx => entryPlace_inside h hi hx⟩
    by_cases hsigned : signed_ (number t (entryPlace c i) c.size) = true
    · refine ⟨1, ⟨.ok (number t (entryPlace c i) c.size), lengthPlaces ++ List.range' (entryPlace c i) c.size⟩, ?_,
        hhere⟩
      show findFrom t c signed_ 1 i = _
      rw [findFrom, if_pos hi]
      exact if_pos hsigned
    · refine ⟨n + 1, r.after (lengthPlaces ++ List.range' (entryPlace c i) c.size), ?_,
        List.forall_mem_append.mpr ⟨hhere, hreads⟩⟩
      show findFrom t c signed_ (n + 1) i = _
      rw [findFrom, if_pos hi]
      dsimp only at hrest ⊢
      rw [if_neg hsigned, hrest, Option.map_some]

/-- **`SdtFind`** stays inside a table that is not shorter than its header. -/
theorem find_inside_iff : Inside t (find t c signed_) ↔ sizeofSdtHeader ≤ length t := by
  refine ⟨fun ⟨n, r, hrun, hreads⟩ => ?_, fun h => findFrom_inside h 0⟩
  by_contra hshort
  have hpos : 0 < entryCount t c := Nat.lt_of_le_of_lt (Nat.zero_le _) (entryCount_wraps (Nat.not_le.mp hshort))
  have hplace : sizeofSdtHeader ∈ lengthPlaces ++ List.range' (entryPlace c 0) c.size := by
    refine List.mem_append_right _ (List.mem_range'_1.mpr ?_)
    have hsize := Child.size_pos c
    unfold entryPlace
    omega
  refine hshort (Nat.le_of_lt (hreads sizeofSdtHeader ?_))
  unfold find at hrun
  cases n with
  | zero => cases hrun
  | succ n =>
    rw [findFrom, if_pos hpos] at hrun
    dsimp only at hrun
    by_cases hsigned : signed_ (number t (entryPlace c 0) c.size) = true
    · rw [if_pos hsigned] at hrun
      cases hrun
      exact hplace
    · rw [if_neg hsigned] at hrun
      obtain ⟨r', -, rfl⟩ := Option.map_eq_some_iff.mp hrun
      exact List.mem_append_left _ hplace

/-- The loop calls back with the entries that the table says it has. -/
theorem foreachFrom_spec {n i : ℕ} {r : Read (List (ℕ × ℕ))} (h : foreachFrom t c beyond n i = some r) :
    r.result = (List.range' i (entryCount t c - i)).map (fun j => (j, copied t c beyond j)) ∧
      ∀ x ∈ r.reads, x ∈ lengthPlaces := by
  induction n generalizing i r with
  | zero => cases h
  | succ n ih =>
    rw [foreachFrom] at h
    by_cases hi : i < entryCount t c
    · rw [if_pos hi] at h
      obtain ⟨r', hrest, rfl⟩ := Option.map_eq_some_iff.mp h
      obtain ⟨hresult, hreads⟩ := ih hrest
      refine ⟨?_, List.forall_mem_append.mpr ⟨fun _ hx => hx, hreads⟩⟩
      rw [show entryCount t c - i = entryCount t c - (i + 1) + 1 by omega, List.range'_succ, List.map_cons, ← hresult]
    · rw [if_neg hi] at h
      cases h
      rw [show entryCount t c - i = 0 by omega]
      exact ⟨rfl, fun _ hx => hx⟩

theorem foreachFrom_ends (t : Memory) (c : Child) (beyond : ℕ → ℕ) (i : ℕ) : ∃ n r, foreachFrom t c beyond n i = some r := by
  generalize hleft : entryCount t c - i = left
  induction left generalizing i with
  | zero => exact ⟨1, ⟨[], lengthPlaces⟩, by rw [foreachFrom, if_neg (by omega)]⟩
  | succ left ih =>
    obtain ⟨n, r, hrest⟩ := ih (i + 1) (by omega)
    refine ⟨n + 1, ⟨(i, copied t c beyond i) :: r.result, lengthPlaces ++ r.reads⟩, ?_⟩
    rw [foreachFrom, if_pos (by omega), hrest, Option.map_some]

/-- **`SdtForeach`** stays inside a table, and inside its copy, if the table has as many entries as
the copy. -/
theorem foreach_inside_iff : ForeachInside t c beyond ↔ sizeofSdtHeader ≤ length t ∧ entryCount t c = maxEntries := by
  have hsize := Child.size_pos c
  constructor
  · rintro ⟨n, r, hrun, hreads, hcopied⟩
    obtain ⟨r', hloop, rfl⟩ := Option.map_eq_some_iff.mp hrun
    obtain ⟨hresult, -⟩ := foreachFrom_spec hloop
    have hlast : sizeofSdtHeader + maxEntries * c.size - 1 < length t := by
      refine hreads _ (List.mem_append_left _ (List.mem_range'_1.mpr ?_))
      unfold maxEntries
      omega
    have hheader : sizeofSdtHeader ≤ length t := by
      unfold maxEntries at hlast
      omega
    refine ⟨hheader, Nat.le_antisymm ?_ ?_⟩
    · by_contra hmore
      have hmem : (maxEntries, copied t c beyond maxEntries) ∈ (r'.after (List.range' sizeofSdtHeader
          (maxEntries * c.size))).result := by
        show _ ∈ r'.result
        rw [hresult]
        exact List.mem_map.mpr ⟨maxEntries, List.mem_range'_1.mpr ⟨Nat.zero_le _, by omega⟩, rfl⟩
      exact absurd (hcopied _ hmem) (Nat.lt_irrefl _)
    · unfold entryCount
      rw [Nat.le_div_iff_mul_le hsize.1, childLen_eq hheader]
      unfold maxEntries at hlast ⊢
      omega
  · rintro ⟨hheader, hcount⟩
    obtain ⟨n, r, hloop⟩ := foreachFrom_ends t c beyond 0
    obtain ⟨hresult, hreads⟩ := foreachFrom_spec hloop
    refine ⟨n, r.after (List.range' sizeofSdtHeader (maxEntries * c.size)), ?_, ?_, fun e he => ?_⟩
    · rw [foreach, hloop, Option.map_some]
    · refine List.forall_mem_append.mpr ⟨fun x hx => ?_, fun x hx => ?_⟩
      · have hrange := List.mem_range'_1.mp hx
        have hmul : maxEntries * c.size ≤ childLen t := by
          rw [← hcount]
          exact Nat.div_mul_le_self _ _
        rw [childLen_eq hheader] at hmul
        omega
      · exact lengthPlaces_inside (by unfold sizeofSdtHeader at hheader; omega) x (hreads x hx)
    · have he : e ∈ r.result := he
      rw [hresult, hcount] at he
      obtain ⟨j, hj, rfl⟩ := List.mem_map.mp he
      have hrange := List.mem_range'_1.mp hj
      dsimp only
      omega

end Sdts

section Madts

open Madt

variable {m : Memory} {type : BitVec 8} {e : ℕ} {l : List ℕ}

/-- The end of a table, also if its length wraps. -/
theorem end_eq (m : Memory) : end_ m = length m := by
  have hlt := length_lt m
  unfold end_ begin_ len childLen Lib.size sizeofSdtHeader
  omega

/-- What `find_entry` finds in an entry. -/
def match_ (m : Memory) (type : BitVec 8) (e : ℕ) : Option ℕ := if m e = type then some e else none

/-- What `find_entry` reads of an entry. -/
def entryReads (m : Memory) (type : BitVec 8) (e : ℕ) : List ℕ := if m e = type then [e] else [e, e + 1]

/-- `find_entry` looks at the entries up to the first one of the type. -/
theorem findEntryFrom_visits {n : ℕ} {r : Read (Except String ℕ)} (h : findEntryFrom m type n e = some r) :
    ∃ l res, Visits (entryLength m) (match_ m type) (length m) e l res ∧
      (∀ x ∈ lengthPlaces, x ∈ r.reads) ∧ ∀ x ∈ l, ∀ y ∈ entryReads m type x, y ∈ r.reads := by
  induction n generalizing e r with
  | zero => cases h
  | succ n ih =>
    rw [findEntryFrom, end_eq] at h
    by_cases hlt : e < length m
    · rw [if_pos hlt] at h
      by_cases htype : m e = type
      · rw [if_pos htype] at h
        cases h
        refine ⟨[e], some e, ⟨rfl, hlt, Or.inr ⟨e, if_pos htype, rfl, rfl⟩⟩,
          fun x hx => List.mem_append_left _ hx, List.forall_mem_singleton.mpr fun y hy => ?_⟩
        rw [entryReads, if_pos htype] at hy
        exact List.mem_append_right _ hy
      · rw [if_neg htype] at h
        obtain ⟨r', hrest, rfl⟩ := Option.map_eq_some_iff.mp h
        obtain ⟨l, res, hvisits, -, hreads⟩ := ih hrest
        refine ⟨e :: l, res, ⟨rfl, hlt, Or.inl ⟨if_neg htype, hvisits⟩⟩,
          fun x hx => List.mem_append_left _ (List.mem_append_left _ hx), List.forall_mem_cons.mpr ⟨fun y hy => ?_,
            fun x hx y hy => List.mem_append_right _ (hreads x hx y hy)⟩⟩
        rw [entryReads, if_neg htype] at hy
        exact List.mem_append_left _ (List.mem_append_right _ hy)
    · rw [if_neg hlt] at h
      cases h
      exact ⟨[], none, ⟨Nat.not_lt.mp hlt, rfl⟩, fun x hx => hx, fun x hx => absurd hx List.not_mem_nil⟩

/-- It reads nothing else. -/
theorem findEntryFrom_of_visits {res : Option ℕ} (h : Visits (entryLength m) (match_ m type) (length m) e l res) :
    ∃ n r, findEntryFrom m type n e = some r ∧
      ∀ x ∈ r.reads, x ∈ lengthPlaces ∨ ∃ y ∈ l, x ∈ entryReads m type y := by
  induction l generalizing e with
  | nil =>
    refine ⟨1, ⟨.error "Madt: Entry not found", lengthPlaces⟩, ?_, fun x hx => Or.inl hx⟩
    rw [findEntryFrom, end_eq, if_neg (Nat.not_lt.mpr h.1)]
  | cons x l ih =>
    obtain ⟨rfl, hlt, hgoes⟩ := h
    rcases hgoes with ⟨hnone, hrest⟩ | ⟨y, hsome, rfl, rfl⟩
    · have htype : m x ≠ type := fun htype => by
        rw [match_, if_pos htype] at hnone
        cases hnone
      obtain ⟨n, r, hrun, hreads⟩ := ih hrest
      refine ⟨n + 1, r.after (lengthPlaces ++ [x, x + 1]), ?_, fun z hz => ?_⟩
      · rw [findEntryFrom, end_eq, if_pos hlt, if_neg htype, hrun, Option.map_some]
      · rcases List.mem_append.mp hz with hz | hz
        · refine (List.mem_append.mp hz).imp_right fun hz => ⟨x, List.mem_cons_self, ?_⟩
          rw [entryReads, if_neg htype]
          exact hz
        · exact (hreads z hz).imp_right fun ⟨y, hy, hmem⟩ => ⟨y, List.mem_cons_of_mem _ hy, hmem⟩
    · have htype : m x = type := by
        by_contra htype
        rw [match_, if_neg htype] at hsome
        cases hsome
      refine ⟨1, ⟨.ok x, lengthPlaces ++ [x]⟩, ?_, fun z hz => ?_⟩
      · rw [findEntryFrom, end_eq, if_pos hlt, if_pos htype]
      · refine (List.mem_append.mp hz).imp_right fun hz => ⟨x, List.mem_cons_self, ?_⟩
        rw [entryReads, if_pos htype]
        exact hz

/-- `foreach_entry` looks at all entries up to the end. -/
theorem foreachEntryFrom_visits {n : ℕ} {r : Read (List ℕ)} (h : foreachEntryFrom m type n e = some r) :
    ∃ l, Visits (entryLength m) (fun _ => (none : Option ℕ)) (length m) e l none ∧
      (∀ x ∈ lengthPlaces, x ∈ r.reads) ∧ ∀ x ∈ l, x ∈ r.reads ∧ x + 1 ∈ r.reads := by
  induction n generalizing e r with
  | zero => cases h
  | succ n ih =>
    rw [foreachEntryFrom, end_eq] at h
    by_cases hlt : e < length m
    · rw [if_pos hlt] at h
      obtain ⟨r', hrest, rfl⟩ := Option.map_eq_some_iff.mp h
      obtain ⟨l, hvisits, -, hreads⟩ := ih hrest
      refine ⟨e :: l, ⟨rfl, hlt, Or.inl ⟨rfl, hvisits⟩⟩, fun x hx => ?_, List.forall_mem_cons.mpr ⟨⟨?_, ?_⟩, fun x hx => ?_⟩⟩
      · exact List.mem_append_left _ (List.mem_append_left _ hx)
      · exact List.mem_append_left _ (List.mem_append_right _ List.mem_cons_self)
      · exact List.mem_append_left _ (List.mem_append_right _ (List.mem_cons_of_mem _ List.mem_cons_self))
      · exact ⟨List.mem_append_right _ (hreads x hx).1, List.mem_append_right _ (hreads x hx).2⟩
    · rw [if_neg hlt] at h
      cases h
      exact ⟨[], ⟨Nat.not_lt.mp hlt, rfl⟩, fun x hx => hx, fun x hx => absurd hx List.not_mem_nil⟩

/-- It calls back with those of the type, and reads the two bytes of each. -/
theorem foreachEntryFrom_of_visits (type : BitVec 8)
    (h : Visits (entryLength m) (fun _ => (none : Option ℕ)) (length m) e l none) :
    ∃ n r, foreachEntryFrom m type n e = some r ∧ (r.result = l.filter fun x => m x = type) ∧
      ∀ x ∈ r.reads, x ∈ lengthPlaces ∨ ∃ y ∈ l, x = y ∨ x = y + 1 := by
  induction l generalizing e with
  | nil =>
    refine ⟨1, ⟨[], lengthPlaces⟩, ?_, rfl, fun x hx => Or.inl hx⟩
    rw [foreachEntryFrom, end_eq, if_neg (Nat.not_lt.mpr h.1)]
  | cons x l ih =>
    obtain ⟨rfl, hlt, ⟨-, hrest⟩ | ⟨y, hsome, -⟩⟩ := h
    · obtain ⟨n, r, hrun, hresult, hreads⟩ := ih hrest
      refine ⟨n + 1, ⟨if m x = type then x :: r.result else r.result, lengthPlaces ++ [x, x + 1] ++ r.reads⟩,
        ?_, ?_, fun z hz => ?_⟩
      · rw [foreachEntryFrom, end_eq, if_pos hlt, hrun, Option.map_some]
      · rw [List.filter_cons, hresult]
        simp only [decide_eq_true_eq]
      · rcases List.mem_append.mp hz with hz | hz
        · refine (List.mem_append.mp hz).imp_right fun hz => ⟨x, List.mem_cons_self, ?_⟩
          simpa using hz
        · exact (hreads z hz).imp_right fun ⟨y, hy, hmem⟩ => ⟨y, List.mem_cons_of_mem _ hy, hmem⟩
    · cases hsome

/-- A function that reads the length stays inside only a table that has one. -/
theorem header_of_reads {reads : List ℕ} (h : ∀ x ∈ lengthPlaces, x ∈ reads) (hall : ∀ x ∈ reads, x < length m) :
    8 ≤ length m :=
  hall 7 (h 7 (by decide))

/-- **`find_entry`** ends inside the table exactly if every entry that it reaches has its type below the
length, and also its own length, not zero, unless it is the one. -/
theorem findEntry_iff : Inside m (findEntry m type) ↔ 8 ≤ length m ∧
    ∀ e, Reaches (entryLength m) (match_ m type) (length m) begin_ e →
      m e ≠ type → e + 1 < length m ∧ entryLength m e ≠ 0 := by
  have hwalk := Lib.exists_visits_iff (entryLength m) (match_ m type) (length m)
    (a := begin_) (P := fun x => ∀ y ∈ entryReads m type x, y < length m)
  constructor
  · rintro ⟨n, r, hrun, hinside⟩
    obtain ⟨l, res, hvisits, hlength, hreads⟩ := findEntryFrom_visits hrun
    refine ⟨header_of_reads hlength hinside, fun e he htype => ?_⟩
    obtain ⟨hplaces, hsize⟩ := hwalk.mp ⟨l, res, hvisits, fun x hx y hy => hinside y (hreads x hx y hy)⟩ e he
    rw [entryReads, if_neg htype] at hplaces
    exact ⟨hplaces (e + 1) (List.mem_cons_of_mem _ List.mem_cons_self), hsize (if_neg htype)⟩
  · rintro ⟨hheader, hentries⟩
    obtain ⟨l, res, hvisits, hplaces⟩ := hwalk.mpr fun e he => by
      have hlt : e < length m := he.lt
      unfold entryReads match_
      by_cases htype : m e = type
      · simp [htype, hlt]
      · have hentry := hentries e he htype
        simp [htype, hlt, hentry]
    obtain ⟨n, r, hrun, hreads⟩ := findEntryFrom_of_visits hvisits
    refine ⟨n, r, hrun, fun x hx => ?_⟩
    rcases hreads x hx with hx | ⟨y, hy, hmem⟩
    · exact lengthPlaces_inside hheader x hx
    · exact hplaces y hy x hmem

/-- **`foreach_entry`** ends inside the table exactly if the walk over all entries can be made. -/
theorem foreachEntry_iff : Inside m (foreachEntry m type) ↔ Walkable m := by
  have hwalk := Lib.exists_visits_iff (entryLength m) (fun _ => (none : Option ℕ)) (length m)
    (a := begin_) (P := fun x => x + 1 < length m)
  constructor
  · rintro ⟨n, r, hrun, hinside⟩
    obtain ⟨l, hvisits, hlength, hreads⟩ := foreachEntryFrom_visits hrun
    refine ⟨header_of_reads hlength hinside, fun e he => ?_⟩
    exact (hwalk.mp ⟨l, none, hvisits, fun x hx => hinside _ (hreads x hx).2⟩ e he).imp_right fun hsize => hsize rfl
  · rintro ⟨hheader, hentries⟩
    obtain ⟨l, res, hvisits, hplaces⟩ := hwalk.mpr fun e he => (hentries e he).imp_right fun hsize _ => hsize
    have hnone : res = none := hvisits.eq_none fun _ => rfl
    subst hnone
    obtain ⟨n, r, hrun, -, hreads⟩ := foreachEntryFrom_of_visits type hvisits
    refine ⟨n, r, hrun, fun x hx => ?_⟩
    rcases hreads x hx with hx | ⟨y, hy, rfl | rfl⟩
    · exact lengthPlaces_inside hheader x hx
    · exact Nat.lt_of_succ_lt (hplaces x hy)
    · exact hplaces y hy

/-- `find_entry` reaches only entries that the walk over all of them reaches. -/
theorem reaches_of_find (h : Reaches (entryLength m) (match_ m type) (length m) begin_ e) : Entry m e := by
  induction h with
  | start hlt => exact .start hlt
  | next _ _ hlt ih => exact .next ih rfl hlt

theorem walkable_findEntry (h : Walkable m) : Inside m (findEntry m type) :=
  findEntry_iff.mpr ⟨h.header, fun e he _ => h.entries e (reaches_of_find he)⟩

/-- **`foreach_entry`** calls back once for each entry of the type, in order, if the entries tile the
table. -/
theorem foreachEntry_wellFormed (h : WellFormed m l) : CallsEach m type l := by
  have hvisits := Lib.visits_of_leads (fun _ => (none : Option ℕ)) (fun _ => rfl) h.1
    fun x hx => Nat.lt_of_lt_of_le Nat.two_pos (h.2 x hx)
  obtain ⟨n, r, hrun, hresult, -⟩ := foreachEntryFrom_of_visits type hvisits
  exact ⟨n, r, hrun, hresult⟩

end Madts

/-- **The walks over ACPI tables** stay inside them exactly if the SDT has as many entries as
`SdtForeach` copies, and each entry of the MADT that is reached begins before its last byte and has a length that is not
zero. -/
theorem acpi_inside_iff (t : Memory) (c : Sdt.Child) (signed_ : ℕ → Bool) (beyond : ℕ → ℕ) (m : Memory)
    (type : BitVec 8) : AcpiInside t c signed_ beyond m type ↔
      (sizeofSdtHeader ≤ length t ∧ Sdt.entryCount t c = Sdt.maxEntries) ∧ Madt.Walkable m := by
  constructor
  · rintro ⟨-, hforeach, -, hentries, -⟩
    exact ⟨foreach_inside_iff.mp hforeach, foreachEntry_iff.mp hentries⟩
  · rintro ⟨hsdt, hmadt⟩
    exact
      { find := find_inside_iff.mpr hsdt.1
        foreach := foreach_inside_iff.mpr hsdt
        findEntry := walkable_findEntry hmadt
        foreachEntry := foreachEntry_iff.mpr hmadt
        calls := fun _ hl => foreachEntry_wellFormed hl }

/-- A MADT of 46 bytes, with one entry that says that it has no length. -/
def stalledMadt : Memory := fun x => if x = 4 then 46#8 else 0#8

/-- An XSDT of 44 bytes, with one entry. -/
def smallXsdt : Memory := fun x => if x = 4 then 44#8 else 0#8

/-- `foreach_entry` does not end on the entry of no length, and `SdtForeach` copies what is behind
the table. -/
theorem walks_not_inside : ¬ AcpiInside smallXsdt .xsdt (fun _ => false) (fun _ => 0) stalledMadt 1#8 ∧
    ∀ n, Madt.foreachEntry stalledMadt 1#8 n = none := by
  refine ⟨fun h => ?_, fun n => ?_⟩
  · obtain ⟨-, hcount⟩ := foreach_inside_iff.mp h.foreach
    exact absurd hcount (by decide)
  · unfold Madt.foreachEntry
    induction n with
    | zero => rfl
    | succ n ih =>
      rw [Madt.foreachEntryFrom, if_pos (by decide)]
      have hlength : Madt.entryLength stalledMadt Madt.begin_ = 0 := by decide
      rw [hlength]
      exact congrArg (Option.map _) ih

end Acpi
end WingOS
