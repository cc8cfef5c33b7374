/-
# Reads of a file

`FsFile::read` (`protocols/vfs/file.hpp`) reads a part of a file into a buffer: it
widens the range to whole pages, gives the server memory for them, maps the
memory that comes back, and copies the range that it was asked for. The server
does what `inode_read` says: it fills what the file has, and answers how much.

The answer is not looked at. So the read says that all bytes were there, and copies
them, which is right only inside the file (`copies_right_iff`); and neither
the memory nor its mapping is released, so that only a read of nothing leaves the
client as it should be (`read_exact_iff`).

Key definitions: `fulfil`, `FsFile.read`, `Exact`.
Key theorems: `read_returned`, `read_exact_iff`, `copies_right_iff`.
-/
import WingOS.AssetTable
import WingOS.Range

namespace WingOS
namespace FsFile

open AssetTable

/-- The contents of memory. -/
abbrev Bytes := ℕ → UInt8

/-- What the kernel gives: a memory asset, with what its memory holds, if there is
memory; and a mapping of it, if it can be made. -/
structure Kernel where
  memory : Option AssetPtr
  contents : Bytes
  mapping : Option AssetPtr

/-- A client: its assets, and the buffer that it passed. -/
structure Client where
  table : AssetTable
  buffer : Bytes

inductive ReadResult
  | returned (n : ℕ)
  | failed (e : String)
  /-- The processor stops it. -/
  | faults
  deriving DecidableEq

/-- `FS_READ` of the server, as `inode_read` says: how many bytes of the range the
file has, and the memory with these. -/
def fulfil (file : List UInt8) (off len : ℕ) (mem : Bytes) : ℕ × Bytes :=
  let n := min len (file.length - off)
  (n, fun i => if i < n then file.getD (off + i) 0 else mem i)

/-- A new entry for an asset, and its handle. -/
def addAsset (t : AssetTable) (a : AssetPtr) : AssetTable × ℕ :=
  (t.insertNew { asset := some a, handle := 0 } (by simp), t.allocUid + 1)

/-- `FsFile::read` into an asset: the asset goes to the server, and comes back
under another handle. The number of bytes is what the server says. -/
def readAsset (file : List UInt8) (a : AssetPtr) (handle off len : ℕ) (mem : Bytes) (t : AssetTable) :
    (ℕ × Bytes) × AssetTable × ℕ :=
  (fulfil file off len mem, addAsset (t.moveOut handle) a)

/-- The widened range: where it begins, and its length. -/
def widened (offset len : ℕ) : ℕ × ℕ :=
  let aoffset := alignDown offset 4096
  (aoffset, (alignUp ((len + offset) % 2 ^ 64) 4096 + (2 ^ 64 - aoffset)) % 2 ^ 64)

/-- `FsFile::read` into a buffer. -/
def read (k : Kernel) (file : List UInt8) (offset len : ℕ) (c : Client) : ReadResult × Client :=
  if len = 0 then (.returned 0, c)
  else
    let (aoffset, alen) := widened offset len
    let delta := offset - aoffset
    match k.memory with
    -- the call fails, and its message has no asset
    | none => (.faults, c)
    | some a =>
      let (t, handle) := addAsset c.table a
      let ((_, mem), t, handle) := readAsset file a handle aoffset alen k.contents t
      -- `mapped.ptr() == nullptr`
      if alen = 0 then (.failed "FsFile::read: failed to map memory", { c with table := t.moveOut handle })
      else
        match k.mapping with
        -- it is not mapped, but its address is known
        | none => (.faults, { c with table := t })
        | some b =>
          let (t, _) := addAsset t b
          if alen < delta + len then (.faults, { c with table := t })
          else (.returned len, { table := t, buffer := fun i => if i < len then mem (delta + i) else c.buffer i })

/-- The bytes of the file that the range has. -/
def available (file : List UInt8) (offset len : ℕ) : ℕ := min len (file.length - offset)

/-- The buffer with these bytes of the file. -/
def filled (file : List UInt8) (offset len : ℕ) (buffer : Bytes) : Bytes :=
  fun i => if i < available file offset len then file.getD (offset + i) 0 else buffer i

/-- The read is exact: its result, the buffer, and the assets. -/
structure Exact (file : List UInt8) (offset len : ℕ) (c : Client) (r : ReadResult × Client) : Prop where
  result : r.1 = .returned (available file offset len)
  buffer : r.2.buffer = filled file offset len c.buffer
  assets : ∀ h, r.2.table.assetAt h = c.table.assetAt h

section Read

variable {k : Kernel} {file : List UInt8} {offset len : ℕ} {c : Client}

theorem assetAt_addAsset (t : AssetTable) (a : AssetPtr) (h : ℕ) :
    (addAsset t a).1.assetAt h = if h = t.allocUid + 1 then some a else t.assetAt h := assetAt_insertNew (by simp)

@[simp] theorem allocUid_addAsset (t : AssetTable) (a : AssetPtr) : (addAsset t a).1.allocUid = t.allocUid + 1 := rfl

/-- What a read of something that returns has done. -/
structure Returned (k : Kernel) (file : List UInt8) (offset len : ℕ) (c : Client) (r : ReadResult × Client) : Prop where
  result : r.1 = .returned len
  fits : offset - (widened offset len).1 + len ≤ (widened offset len).2
  buffer : ∀ i < len, r.2.buffer i =
    (fulfil file (widened offset len).1 (widened offset len).2 k.contents).2 (offset - (widened offset len).1 + i)
  rest : ∀ i, len ≤ i → r.2.buffer i = c.buffer i
  /-- the memory, as it came back -/
  leaked : r.2.table.assetAt (c.table.allocUid + 2) ≠ none

theorem read_returned (hlen : len ≠ 0) {n : ℕ} (h : (read k file offset len c).1 = .returned n) :
    Returned k file offset len c (read k file offset len c) := by
  unfold read at h ⊢
  rw [if_neg hlen] at h ⊢
  dsimp only at h ⊢
  cases hmemory : k.memory with
  | none =>
    rw [hmemory] at h
    cases h
  | some a =>
    rw [hmemory] at h
    dsimp only at h ⊢
    split at h
    · cases h
    rename_i halen
    rw [if_neg halen]
    cases hmapping : k.mapping with
    | none =>
      rw [hmapping] at h
      cases h
    | some b =>
      rw [hmapping] at h
      dsimp only at h ⊢
      split at h
      · cases h
      rename_i hfits
      rw [if_neg hfits]
      refine ⟨rfl, Nat.not_lt.mp hfits, fun i hi => if_pos hi, fun i hi => if_neg (Nat.not_lt.mpr hi), ?_⟩
      dsimp only [readAsset]
      rw [assetAt_addAsset, assetAt_addAsset]
      simp

/-- **A read is exact** only if it reads nothing: any other one that returns keeps
the memory and its mapping. -/
theorem read_exact_iff (k : Kernel) (file : List UInt8) (offset len : ℕ) (c : Client) :
    Exact file offset len c (read k file offset len c) ↔ len = 0 := by
  constructor
  · intro h
    by_contra hlen
    refine (read_returned hlen h.result).leaked ?_
    rw [h.assets]
    exact assetAt_of_lt (by omega)
  · rintro rfl
    have hread : read k file offset 0 c = (.returned 0, c) := if_pos rfl
    have hnone : available file offset 0 = 0 := Nat.zero_min _
    rw [hread]
    refine ⟨?_, ?_, fun _ => rfl⟩
    · rw [hnone]
    · funext i
      unfold filled
      rw [hnone, if_neg (Nat.not_lt_zero i)]

/-- A client without assets, and a kernel that gives it the assets 1 and 2. -/
theorem read_inexact :
    ¬ Exact [1, 2, 3] 0 3 ⟨AssetTable.empty 0, fun _ => 0⟩
      (read ⟨some 1, fun _ => 0, some 2⟩ [1, 2, 3] 0 3 ⟨AssetTable.empty 0, fun _ => 0⟩) := by
  intro h
  exact absurd (h.assets 2) (by decide)

/-- The number of bytes and the buffer are right exactly inside the file. -/
theorem copies_right_iff (hlen : len ≠ 0) {n : ℕ} (h : (read k file offset len c).1 = .returned n) :
    (n = available file offset len ∧ (read k file offset len c).2.buffer = filled file offset len c.buffer) ↔
      offset + len ≤ file.length := by
  have hreturned := read_returned hlen h
  rw [hreturned.result] at h
  cases h
  unfold filled available
  constructor
  · rintro ⟨hn, -⟩
    omega
  · intro hinside
    have hn : min len (file.length - offset) = len := Nat.min_eq_left (by omega)
    have hdown : (widened offset len).1 ≤ offset := Nat.and_le_left
    refine ⟨hn.symm, funext fun i => ?_⟩
    rw [hn]
    by_cases hi : i < len
    · have hfits := hreturned.fits
      rw [if_pos hi, hreturned.buffer i hi]
      dsimp only [fulfil]
      rw [if_pos (by omega), show (widened offset len).1 + (offset - (widened offset len).1 + i) = offset + i by omega]
    · rw [if_neg hi, hreturned.rest i (Nat.not_lt.mp hi)]

end Read

end FsFile
end WingOS
