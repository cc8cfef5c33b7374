/-
# The ext4 file system: directories

`get_subdir` (`app/fs/ext4/ext4.cpp`) goes through the blocks of a directory, and in a
block from an entry to what is as far behind it as its `rec_len` says, until an entry
has the name. Nothing of an entry is checked. So the walk stays where it is at an entry
with `rec_len` zero; and of an entry that begins near the end of its block, or has its
name there, it reads what is behind the block. Where no such entry is reached the walk
ends, and finds the first entry with the name (`walksSafely_iff`).

The walk is one over places (`place`): those of the second block come behind those of
the first one.

Key definitions: `getSubdir`, `entryPlaces`, `entryMatch`, `blockOf`, `WalksSafely`.
Key theorems: `entryPlaces_congr`, `scanBlock_step`, `scanBlocks_ends`, `visits_scanBlocks`,
`walksSafely_iff`.
-/
import WingOS.Ext4View
import WingOS.Lib.Records

namespace WingOS
namespace Ext4

open Lib (Memory Packed number number_congr Leads Reaches Visits)

inductive DirEntryField
  | inode | recLen | nameLen | fileType
  deriving DecidableEq

open DirEntryField in
/-- `Ext4DirEntry`; the name is behind it. -/
def dirEntry : Packed DirEntryField where
  fields := [inode, recLen, nameLen, fileType]
  size
    | inode => 4
    | recLen => 2
    | _ => 1

/-- A walk over a directory: the volume, and the places in the blocks that were read
of, each from the start of the block that was examined then. -/
structure DirWalk where
  volume : Volume
  reads : List ℕ

def DirWalk.read (s : DirWalk) (places : List ℕ) : DirWalk := { s with reads := s.reads ++ places }

def inWalk {α : Type} (x : Fs Volume α) : Fs DirWalk α := fun s =>
  (x s.volume).map fun r => (r.1, { s with volume := r.2 })

/-! ### The code -/

section Model

/-- Where a field of the entry at `x` is. -/
def fieldPlaces (x : ℕ) (f : DirEntryField) : List ℕ := List.range' (x + dirEntry.offset f) (dirEntry.size f)

/-- A field of the entry at `x`. -/
def entryField (m : Memory) (x : ℕ) (f : DirEntryField) : ℕ := number m (x + dirEntry.offset f) (dirEntry.size f)

def readField (p : Ptr) (x : ℕ) (f : DirEntryField) : Fs DirWalk ℕ := fun s =>
  some (.ok (entryField (s.volume.at' p) x f), s.read (fieldPlaces x f))

def readByte (p : Ptr) (x : ℕ) : Fs DirWalk (BitVec 8) := fun s => some (.ok (s.volume.at' p x), s.read [x])

/-- The loop of `MemView::operator==`. -/
def sameBytes (p : Ptr) : ℕ → List (BitVec 8) → Fs DirWalk Bool
  | _, [] => return true
  | x, c :: cs => do
    let byte ← readByte p x
    if byte ≠ c then return false
    else sameBytes p (x + 1) cs

/-- `ename == name`. -/
def sameName (p : Ptr) (x : ℕ) (name : List (BitVec 8)) : Fs DirWalk Bool := do
  let nameLen ← readField p x .nameLen
  if nameLen ≠ name.length then return false
  else sameBytes p (x + dirEntry.sizeof) name

variable (l : Ext4Layout) (dir : Ext4InodeRef) (name : List (BitVec 8)) (size : ℕ)

/-- The loop over the entries of the block `b`. -/
def scanBlock (b : ℕ) : ℕ → ℕ → Fs DirWalk (Option Ext4InodeRef)
  | 0, _ => fun _ => none
  | fuel + 1, x =>
    if x < size then do
      let p ← inWalk (inodeReadTmp dir b)
      let recLen ← readField p x .recLen
      let inode ← readField p x .inode
      if inode = 0 then scanBlock b fuel (x + recLen)
      else do
        let same ← sameName p x name
        if same then do
          let r ← inWalk (readInode l inode)
          return some r
        else scanBlock b fuel (x + recLen)
    else return none

/-- The loop over the blocks, of which there are `n` more from `b` on. -/
def scanBlocks (fuel : ℕ) : (n b : ℕ) → Fs DirWalk Ext4InodeRef
  | 0, _ => throw "directory entry not found"
  | n + 1, b => do
    match ← scanBlock l dir name size b fuel 0 with
    | some r => return r
    | none => scanBlocks fuel n (b + 1)

/-- `total_blocks`. -/
def dirBlocks : ℕ := (dir.view.sizeLo + size - 1) / size

/-- `get_subdir`. -/
def getSubdir (fuel : ℕ) : Fs DirWalk Ext4InodeRef := do
  let s ← get
  let size := s.volume.fs.blockSize
  scanBlocks l dir name size fuel (dirBlocks dir size) 0

end Model

/-! ### Entries -/

section Entries

/-- The name of an entry. -/
def entryName (m : Memory) (x : ℕ) : List (BitVec 8) :=
  (List.range' (x + dirEntry.sizeof) (entryField m x .nameLen)).map m

/-- The inode of an entry that is in use and has the name. -/
def entryMatch (m : Memory) (name : List (BitVec 8)) (x : ℕ) : Option ℕ :=
  if entryField m x .inode ≠ 0 ∧ entryName m x = name then some (entryField m x .inode) else none

/-- The bytes that a comparison looks at: up to the first that differs. -/
def bytePlaces (m : Memory) : ℕ → List (BitVec 8) → List ℕ
  | _, [] => []
  | x, c :: cs => x :: if m x = c then bytePlaces m (x + 1) cs else []

/-- The bytes of its block that `get_subdir` looks at for an entry. -/
def entryPlaces (m : Memory) (name : List (BitVec 8)) (x : ℕ) : List ℕ :=
  fieldPlaces x .recLen ++ (fieldPlaces x .inode ++ if entryField m x .inode = 0 then [] else
    fieldPlaces x .nameLen ++ if entryField m x .nameLen = name.length then
      bytePlaces m (x + dirEntry.sizeof) name else [])

variable {m m' : Memory} {name cs : List (BitVec 8)} {x size : ℕ} {s : DirWalk} {p : Ptr}

theorem read_read (s : DirWalk) (as bs : List ℕ) : (s.read as).read bs = s.read (as ++ bs) := by
  unfold DirWalk.read
  rw [List.append_assoc]

/-- A comparison looks at bytes until one differs. -/
theorem sameBytes_eq (p : Ptr) (x : ℕ) (cs : List (BitVec 8)) (s : DirWalk) : sameBytes p x cs s =
    some (.ok (decide ((List.range' x cs.length).map (s.volume.at' p) = cs)), s.read (bytePlaces (s.volume.at' p) x cs)) := by
  induction cs generalizing x s with
  | nil =>
    show some _ = some _
    unfold DirWalk.read bytePlaces
    rw [List.append_nil]
    rfl
  | cons c cs ih =>
    unfold sameBytes bytePlaces
    have hbyte : readByte p x s = some (.ok (s.volume.at' p x), s.read [x]) := rfl
    rw [bind_of_ok hbyte]
    by_cases hc : s.volume.at' p x = c
    · have hiff : (List.range' x (c :: cs).length).map (s.volume.at' p) = c :: cs ↔
          (List.range' (x + 1) cs.length).map (s.volume.at' p) = cs := by
        simp [List.range'_succ, hc]
      rw [if_neg (not_not.mpr hc), if_pos hc, ih, read_read, decide_eq_decide.mpr hiff]
      rfl
    · have hne : (List.range' x (c :: cs).length).map (s.volume.at' p) ≠ c :: cs := by
        simp [List.range'_succ, hc]
      rw [if_pos hc, if_neg hc, decide_eq_false hne]
      rfl

theorem sameName_eq (p : Ptr) (x : ℕ) (name : List (BitVec 8)) (s : DirWalk) : sameName p x name s =
    some (.ok (decide (entryName (s.volume.at' p) x = name)), s.read (fieldPlaces x .nameLen ++
      if entryField (s.volume.at' p) x .nameLen = name.length then
        bytePlaces (s.volume.at' p) (x + dirEntry.sizeof) name else [])) := by
  unfold sameName
  have hfield : readField p x .nameLen s =
      some (.ok (entryField (s.volume.at' p) x .nameLen), s.read (fieldPlaces x .nameLen)) := rfl
  rw [bind_of_ok hfield]
  by_cases hlen : entryField (s.volume.at' p) x .nameLen = name.length
  · rw [if_neg (not_not.mpr hlen), if_pos hlen, sameBytes_eq, read_read]
    unfold entryName
    rw [hlen]
    rfl
  · have hne : entryName (s.volume.at' p) x ≠ name := fun heq => hlen (by
      rw [← heq]
      simp [entryName])
    rw [if_pos hlen, if_neg hlen, decide_eq_false hne, List.append_nil]
    rfl

theorem bytePlaces_congr (h : ∀ k < size, m k = m' k) (hin : ∀ k ∈ bytePlaces m x cs, k < size) :
    bytePlaces m' x cs = bytePlaces m x cs ∧
      ((List.range' x cs.length).map m' = cs ↔ (List.range' x cs.length).map m = cs) := by
  induction cs generalizing x with
  | nil => exact ⟨rfl, Iff.rfl⟩
  | cons c cs ih =>
    unfold bytePlaces at hin ⊢
    obtain ⟨hx, hrest⟩ := List.forall_mem_cons.mp hin
    rw [← h x hx, List.length_cons, List.range'_succ, List.map_cons, List.map_cons, ← h x hx]
    by_cases hc : m x = c
    · rw [if_pos hc] at hrest ⊢
      obtain ⟨hplaces, hsame⟩ := ih hrest
      refine ⟨by rw [if_pos hc, hplaces], ?_⟩
      rw [List.cons.injEq, List.cons.injEq, hsame]
    · rw [if_neg hc, if_neg hc]
      simp [hc]

theorem field_congr {f : DirEntryField} (h : ∀ k < size, m k = m' k) (hin : ∀ k ∈ fieldPlaces x f, k < size) :
    entryField m' x f = entryField m x f := by
  refine number_congr fun k hk => (h _ (hin _ ?_)).symm
  exact List.mem_range'_1.mpr ⟨Nat.le_add_right _ _, Nat.add_lt_add_left hk _⟩

/-- **What is looked at** decides what is found, how far the next entry is, and what is looked at. -/
theorem entryPlaces_congr (h : ∀ k < size, m k = m' k) (hin : ∀ k ∈ entryPlaces m name x, k < size) :
    entryPlaces m' name x = entryPlaces m name x ∧ entryMatch m' name x = entryMatch m name x ∧
      entryField m' x .recLen = entryField m x .recLen := by
  unfold entryPlaces at hin ⊢
  obtain ⟨hrec, hrest⟩ := List.forall_mem_append.mp hin
  obtain ⟨hinode, hrest⟩ := List.forall_mem_append.mp hrest
  unfold entryMatch
  rw [field_congr h hrec, field_congr h hinode]
  by_cases hzero : entryField m x .inode = 0
  · rw [if_pos hzero, if_pos hzero, if_neg fun hc => hc.1 hzero, if_neg fun hc => hc.1 hzero]
    exact ⟨rfl, rfl, rfl⟩
  rw [if_neg hzero] at hrest ⊢
  obtain ⟨hlen, hname⟩ := List.forall_mem_append.mp hrest
  rw [if_neg hzero, field_congr h hlen]
  unfold entryName
  rw [field_congr h hlen]
  by_cases hsame : entryField m x .nameLen = name.length
  · rw [if_pos hsame] at hname ⊢
    obtain ⟨hplaces, hiff⟩ := bytePlaces_congr h hname
    rw [if_pos hsame, hplaces, hsame]
    exact ⟨rfl, if_congr (and_congr_right fun _ => hiff) rfl rfl, rfl⟩
  · have hne : ∀ bytes : Memory, (List.range' (x + dirEntry.sizeof) (entryField m x .nameLen)).map bytes ≠ name := by
      rintro bytes rfl
      exact hsame (by simp)
    rw [if_neg hsame, if_neg hsame, if_neg fun hc => hne _ hc.2, if_neg fun hc => hne _ hc.2]
    exact ⟨rfl, rfl, rfl⟩

end Entries

/-! ### Blocks -/

section Blocks

variable (l : Ext4Layout) (v : Volume) (dir : Ext4InodeRef) (name : List (BitVec 8))

/-- What the block `b` of a directory holds, or why it cannot be read. -/
def blockOf (b : ℕ) : Except String Memory :=
  match Opened.found ⟨dir, v⟩ b with
  | .error e => .error e
  | .ok n => if v.Readable n then .ok (v.bytesOf n) else .error "disk read returned no data"

variable {l v dir name} {w : Volume} {s s' : DirWalk} {m : Memory} {b x fuel : ℕ}

theorem inWalk_eq {α : Type} {f : Fs Volume α} {r : Except String α} (h : f s.volume = some (r, w)) :
    inWalk f s = some (r, { s with volume := w }) := by
  unfold inWalk
  rw [h]
  rfl

theorem inodeReadTmp_ok (hready : v.Ready) (hkept : Kept v w) (hm : blockOf v dir b = .ok m) : ∃ p w',
    inodeReadTmp dir b w = some (.ok p, w') ∧ Kept v w' ∧ ∀ k < v.fs.blockSize, m k = w'.at' p k := by
  obtain ⟨w₁, hfind, hkept₁⟩ := findBlock_kept hready hkept dir b
  unfold blockOf at hm
  cases hfound : Opened.found ⟨dir, v⟩ b with
  | error e =>
    rw [hfound] at hm
    cases hm
  | ok n =>
    rw [hfound] at hm hfind
    dsimp only at hm
    by_cases hread : v.Readable n
    · rw [if_pos hread] at hm
      cases hm
      have hkept₂ := hkept.trans hkept₁
      obtain ⟨p, w', hrun, hkept', hat⟩ := readBlockPtr_spec n false hkept₂.ready ((hkept₂.readable n).mpr hread)
      refine ⟨p, w', ?_, hkept₂.trans hkept', fun k hk => ?_⟩
      · unfold inodeReadTmp
        rw [bind_of_ok hfind]
        exact congrArg some hrun
      · rw [hat k (by rwa [hkept₂.blockSize]), hkept₂.bytes _ _ hk]
    · rw [if_neg hread] at hm
      cases hm

theorem inodeReadTmp_error {e : String} (hready : v.Ready) (hkept : Kept v w) (he : blockOf v dir b = .error e) :
    ∃ w', inodeReadTmp dir b w = some (.error e, w') := by
  obtain ⟨w₁, hfind, hkept₁⟩ := findBlock_kept hready hkept dir b
  unfold blockOf at he
  cases hfound : Opened.found ⟨dir, v⟩ b with
  | error e' =>
    rw [hfound] at he hfind
    cases he
    exact ⟨w₁, bind_of_error hfind⟩
  | ok n =>
    rw [hfound] at he hfind
    dsimp only at he
    by_cases hread : v.Readable n
    · rw [if_pos hread] at he
      cases he
    · rw [if_neg hread] at he
      cases he
      have hkept₂ := hkept.trans hkept₁
      obtain ⟨hheld, hnot⟩ := not_readable (mt (hkept₂.readable n).mp hread)
      refine ⟨w₁, ?_⟩
      unfold inodeReadTmp
      rw [bind_of_ok hfind]
      exact congrArg some (readBlockPtr_error hheld hnot false)

theorem readInode_ends (n : ℕ) (w : Volume) : ∃ r w', readInode l n w = some (r, w') := by
  unfold readInode
  cases hslot : readBlockgroupDescriptor l w (blockgroupFromInode l n) with
  | mk res w₁ =>
    cases res with
    | error e => exact ⟨_, _, call_bind_error hslot⟩
    | ok d =>
      rw [call_bind_ok hslot, get_bind]
      cases htable : w₁.readBlockPtr (descriptor.get d .inodeTable + inodeOffset l n / w₁.fs.blockSize) true with
      | mk res w₂ =>
        cases res with
        | error e => exact ⟨_, _, call_bind_error (f := fun w : Volume => w.readBlockPtr _ true) htable⟩
        | ok p =>
          rw [call_bind_ok (f := fun w : Volume => w.readBlockPtr _ true) htable]
          exact ⟨_, _, rfl⟩

variable (l name) in
/-- **An entry is examined**: bytes of it are read, and it is the one that is looked for, or the walk goes
on behind it. -/
theorem scanBlock_step (hready : v.Ready) (hkept : Kept v s.volume) (hm : blockOf v dir b = .ok m)
    (hx : x < v.fs.blockSize) : ∃ w m', Kept v w ∧ (∀ k < v.fs.blockSize, m k = m' k) ∧
      ∀ fuel, scanBlock l dir name v.fs.blockSize b (fuel + 1) x s =
        match entryMatch m' name x with
        | some n => (inWalk (readInode l n) >>= fun r => return some r) ⟨w, s.reads ++ entryPlaces m' name x⟩
        | none => scanBlock l dir name v.fs.blockSize b fuel (x + entryField m' x .recLen)
            ⟨w, s.reads ++ entryPlaces m' name x⟩ := by
  obtain ⟨p, w, hrun, hkept', hat⟩ := inodeReadTmp_ok hready hkept hm
  refine ⟨w, w.at' p, hkept', hat, fun fuel => ?_⟩
  have hfield : ∀ f reads, readField p x f ⟨w, reads⟩ = some (.ok (entryField (w.at' p) x f), ⟨w, reads ++ fieldPlaces x f⟩) :=
    fun _ _ => rfl
  conv_lhs => unfold scanBlock
  rw [if_pos hx, bind_of_ok (inWalk_eq hrun), bind_of_ok (hfield _ _), bind_of_ok (hfield _ _)]
  by_cases hzero : entryField (w.at' p) x .inode = 0
  · have hplaces : entryPlaces (w.at' p) name x = fieldPlaces x .recLen ++ fieldPlaces x .inode := by
      unfold entryPlaces
      rw [if_pos hzero, List.append_nil]
    have hmatch : entryMatch (w.at' p) name x = none := if_neg fun hc => hc.1 hzero
    rw [if_pos hzero, hmatch, hplaces, List.append_assoc]
  · have hsame : sameName p x name ⟨w, s.reads ++ fieldPlaces x .recLen ++ fieldPlaces x .inode⟩ =
        some (.ok (decide (entryName (w.at' p) x = name)), ⟨w, s.reads ++ entryPlaces (w.at' p) name x⟩) := by
      simp only [sameName_eq, DirWalk.read, entryPlaces, if_neg hzero, List.append_assoc]
    rw [if_neg hzero, bind_of_ok hsame]
    by_cases hname : entryName (w.at' p) x = name
    · have hmatch : entryMatch (w.at' p) name x = some (entryField (w.at' p) x .inode) := if_pos ⟨hzero, hname⟩
      rw [if_pos (decide_eq_true hname), hmatch]
    · have hmatch : entryMatch (w.at' p) name x = none := if_neg fun hc => hname hc.2
      rw [if_neg (by rw [decide_eq_false hname]; decide), hmatch]

end Blocks

/-! ### One walk -/

section Places

variable (l : Ext4Layout) (v : Volume) (dir : Ext4InodeRef) (name : List (BitVec 8))

/-- The place of an entry among those of all blocks. -/
def place (b x : ℕ) : ℕ := b * v.fs.blockSize + min x v.fs.blockSize

/-- What ends the walk at a place: an entry with the name, or a block that cannot be read. -/
def outcome (y : ℕ) : Option (Except String ℕ) :=
  match blockOf v dir (y / v.fs.blockSize) with
  | .error e => some (.error e)
  | .ok m => (entryMatch m name (y % v.fs.blockSize)).map .ok

/-- How far it is to the next place. -/
def advance (y : ℕ) : ℕ :=
  match blockOf v dir (y / v.fs.blockSize) with
  | .error _ => 0
  | .ok m => min (y % v.fs.blockSize + entryField m (y % v.fs.blockSize) .recLen) v.fs.blockSize - y % v.fs.blockSize

/-- What is read of the entry is in its block. -/
def Inside (y : ℕ) : Prop := ∀ m, blockOf v dir (y / v.fs.blockSize) = .ok m →
  ∀ k ∈ entryPlaces m name (y % v.fs.blockSize), k < v.fs.blockSize

/-- Where the last block ends. -/
def dirEnd : ℕ := dirBlocks dir v.fs.blockSize * v.fs.blockSize

/-- A walk from a place ends, and stays inside. -/
def Ends (a : ℕ) : Prop :=
  ∃ places r, Visits (advance v dir) (outcome v dir name) (dirEnd v dir) a places r ∧ ∀ y ∈ places, Inside v dir name y

variable {l v dir name} {m : Memory} {a b x : ℕ}

theorem place_lt (hb : b < dirBlocks dir v.fs.blockSize) (hx : x < v.fs.blockSize) : place v b x < dirEnd v dir := by
  have hmul : (b + 1) * v.fs.blockSize ≤ dirBlocks dir v.fs.blockSize * v.fs.blockSize := Nat.mul_le_mul_right _ hb
  rw [Nat.succ_mul] at hmul
  unfold place dirEnd
  omega

theorem place_div (hx : x < v.fs.blockSize) : place v b x / v.fs.blockSize = b := by
  unfold place
  rw [Nat.min_eq_left (Nat.le_of_lt hx), Nat.mul_comm, Nat.mul_add_div v.fs.blockSize_pos, Nat.div_eq_of_lt hx, Nat.add_zero]

theorem place_mod (hx : x < v.fs.blockSize) : place v b x % v.fs.blockSize = x := by
  unfold place
  rw [Nat.min_eq_left (Nat.le_of_lt hx), Nat.mul_comm, Nat.mul_add_mod, Nat.mod_eq_of_lt hx]

/-- Behind the last entry of a block the next block begins. -/
theorem place_end (hx : v.fs.blockSize ≤ x) : place v b x = (b + 1) * v.fs.blockSize := by
  unfold place
  rw [Nat.min_eq_right hx, Nat.succ_mul]

theorem place_zero (b : ℕ) : place v b 0 = b * v.fs.blockSize := by
  unfold place
  rw [Nat.zero_min, Nat.add_zero]

theorem outcome_ok (hx : x < v.fs.blockSize) (hm : blockOf v dir b = .ok m) :
    outcome v dir name (place v b x) = (entryMatch m name x).map .ok := by
  unfold outcome
  rw [place_div hx, place_mod hx, hm]

theorem outcome_error {e : String} (hx : x < v.fs.blockSize) (he : blockOf v dir b = .error e) :
    outcome v dir name (place v b x) = some (.error e) := by
  unfold outcome
  rw [place_div hx, he]

/-- **The next place** is that of the next entry. -/
theorem place_advance (hx : x < v.fs.blockSize) (hm : blockOf v dir b = .ok m) :
    place v b x + advance v dir (place v b x) = place v b (x + entryField m x .recLen) := by
  have hadvance : advance v dir (place v b x) = min (x + entryField m x .recLen) v.fs.blockSize - x := by
    unfold advance
    rw [place_div hx, place_mod hx, hm]
  rw [hadvance]
  unfold place
  omega

theorem inside_place (hx : x < v.fs.blockSize) : Inside v dir name (place v b x) ↔
    ∀ m, blockOf v dir b = .ok m → ∀ k ∈ entryPlaces m name x, k < v.fs.blockSize := by
  unfold Inside
  rw [place_div hx, place_mod hx]

theorem ends_found {o : Except String ℕ} (hlt : a < dirEnd v dir) (hinside : Inside v dir name a)
    (hfound : outcome v dir name a = some o) : Ends v dir name a :=
  ⟨[a], some o, ⟨rfl, hlt, Or.inr ⟨o, hfound, rfl, rfl⟩⟩, List.forall_mem_singleton.mpr hinside⟩

theorem ends_next (hlt : a < dirEnd v dir) (hinside : Inside v dir name a) (hnone : outcome v dir name a = none)
    (hnext : Ends v dir name (a + advance v dir a)) : Ends v dir name a := by
  obtain ⟨places, r, hvisits, hall⟩ := hnext
  exact ⟨a :: places, r, ⟨rfl, hlt, Or.inl ⟨hnone, hvisits⟩⟩, List.forall_mem_cons.mpr ⟨hinside, hall⟩⟩

end Places

/-! ### Runs -/

section Runs

variable {l : Ext4Layout} {v : Volume} {dir : Ext4InodeRef} {name : List (BitVec 8)} {s s' : DirWalk} {b x fuel : ℕ}

/-- The loop over a block is over. -/
theorem scanBlock_end (hx : v.fs.blockSize ≤ x) :
    scanBlock l dir name v.fs.blockSize b (fuel + 1) x s = some (.ok none, s) := by
  unfold scanBlock
  rw [if_neg (Nat.not_lt.mpr hx)]
  rfl

variable (l name) in
theorem scanBlock_error {e : String} (hready : v.Ready) (hkept : Kept v s.volume) (he : blockOf v dir b = .error e)
    (hx : x < v.fs.blockSize) : ∃ w, ∀ fuel,
      scanBlock l dir name v.fs.blockSize b (fuel + 1) x s = some (.error e, ⟨w, s.reads⟩) := by
  obtain ⟨w, hrun⟩ := inodeReadTmp_error hready hkept he
  refine ⟨w, fun fuel => ?_⟩
  unfold scanBlock
  rw [if_pos hx]
  exact bind_of_error (inWalk_eq hrun)

/-- The inode that was found is read, and nothing more of the directory. -/
theorem readFound_eq (n : ℕ) (w : Volume) (reads : List ℕ) : ∃ r w', readInode l n w = some (r, w') ∧
    (inWalk (readInode l n) >>= fun r => return some r) (⟨w, reads⟩ : DirWalk) = some (r.map some, ⟨w', reads⟩) := by
  obtain ⟨r, w', hrun⟩ := readInode_ends (l := l) n w
  refine ⟨r, w', hrun, ?_⟩
  cases r with
  | error e => exact bind_of_error (inWalk_eq (s := ⟨w, reads⟩) hrun)
  | ok r => exact bind_of_ok (inWalk_eq (s := ⟨w, reads⟩) hrun)

/-- **A run over a block**: if it reads only of the block, the walk from there ends, unless the one from the
next block does not. -/
theorem scanBlock_ends {res : Except String (Option Ext4InodeRef)} (hready : v.Ready)
    (hb : b < dirBlocks dir v.fs.blockSize) (hkept : Kept v s.volume)
    (hrun : scanBlock l dir name v.fs.blockSize b fuel x s = some (res, s')) :
    (∀ k ∈ s.reads, k ∈ s'.reads) ∧ (res = .ok none → Kept v s'.volume) ∧
      ((∀ k ∈ s'.reads, k < v.fs.blockSize) → (res = .ok none → Ends v dir name ((b + 1) * v.fs.blockSize)) →
        Ends v dir name (place v b x)) := by
  induction fuel generalizing x s with
  | zero => cases hrun
  | succ fuel ih =>
    by_cases hx : x < v.fs.blockSize
    swap
    · rw [scanBlock_end (Nat.not_lt.mp hx)] at hrun
      cases hrun
      rw [place_end (Nat.not_lt.mp hx)]
      exact ⟨fun k hk => hk, fun _ => hkept, fun _ hnext => hnext rfl⟩
    have hlt := place_lt hb hx
    cases hm : blockOf v dir b with
    | error e =>
      obtain ⟨w, hstep⟩ := scanBlock_error l name hready hkept hm hx
      rw [hstep] at hrun
      cases hrun
      refine ⟨fun k hk => hk, (fun hc => by cases hc), fun _ _ => ends_found hlt ?_ (outcome_error hx hm)⟩
      rw [inside_place hx]
      intro m hok
      rw [hm] at hok
      cases hok
    | ok m =>
      obtain ⟨w, m', hkept', hat, hstep⟩ := scanBlock_step l name hready hkept hm hx
      rw [hstep] at hrun
      -- what was read of the entry is what would be read of what the block holds
      have hsame : (∀ k ∈ entryPlaces m' name x, k < v.fs.blockSize) → Inside v dir name (place v b x) ∧
          entryMatch m name x = entryMatch m' name x ∧ entryField m x .recLen = entryField m' x .recLen := by
        intro hin
        obtain ⟨hplaces, hmatch, hlen⟩ := entryPlaces_congr (fun k hk => (hat k hk).symm) hin
        refine ⟨(inside_place hx).mpr fun m₁ hm₁ k hk => hin k ?_, hmatch, hlen⟩
        cases hm.symm.trans hm₁
        rwa [hplaces] at hk
      cases hmatch : entryMatch m' name x with
      | none =>
        rw [hmatch] at hrun
        obtain ⟨hmem, hkept'', hends⟩ := ih hkept' hrun
        obtain ⟨hold, hnew⟩ := List.forall_mem_append.mp hmem
        refine ⟨hold, hkept'', fun hreads hnext => ?_⟩
        obtain ⟨hinside, hmatch', hlen⟩ := hsame fun k hk => hreads k (hnew k hk)
        have hnone : outcome v dir name (place v b x) = none := by
          rw [outcome_ok hx hm, hmatch', hmatch]
          rfl
        refine ends_next hlt hinside hnone ?_
        rw [place_advance hx hm, hlen]
        exact hends hreads hnext
      | some n =>
        rw [hmatch] at hrun
        obtain ⟨r, w', -, hread⟩ := readFound_eq (l := l) n w (s.reads ++ entryPlaces m' name x)
        obtain ⟨rfl, rfl⟩ := Prod.mk.inj (Option.some.inj (hread.symm.trans hrun))
        refine ⟨fun k hk => List.mem_append_left _ hk, fun hc => ?_, fun hreads _ => ?_⟩
        · cases r with
          | error e => cases hc
          | ok r => cases hc
        · obtain ⟨hinside, hmatch', -⟩ := hsame fun k hk => hreads k (List.mem_append_right _ hk)
          refine ends_found hlt hinside (o := .ok n) ?_
          rw [outcome_ok hx hm, hmatch', hmatch]
          rfl

/-- A run over all blocks that reads only of them. -/
theorem scanBlocks_ends {n : ℕ} {res : Except String Ext4InodeRef} (hready : v.Ready)
    (hn : b + n = dirBlocks dir v.fs.blockSize) (hkept : Kept v s.volume)
    (hrun : scanBlocks l dir name v.fs.blockSize fuel n b s = some (res, s')) :
    (∀ k ∈ s.reads, k ∈ s'.reads) ∧
      ((∀ k ∈ s'.reads, k < v.fs.blockSize) → Ends v dir name (b * v.fs.blockSize)) := by
  induction n generalizing b s with
  | zero =>
    cases hrun
    refine ⟨fun k hk => hk, fun _ => ⟨[], none, ⟨Nat.le_of_eq ?_, rfl⟩, fun y hy => absurd hy List.not_mem_nil⟩⟩
    unfold dirEnd
    rw [← hn, Nat.add_zero]
  | succ n ih =>
    unfold scanBlocks at hrun
    cases hblock : scanBlock l dir name v.fs.blockSize b fuel 0 s with
    | none =>
      rw [bind_of_none hblock] at hrun
      cases hrun
    | some out =>
      obtain ⟨r, s₁⟩ := out
      obtain ⟨hmem, hkept', hends⟩ := scanBlock_ends hready (by omega) hkept hblock
      rw [place_zero] at hends
      cases r with
      | error e =>
        rw [bind_of_error hblock] at hrun
        cases hrun
        exact ⟨hmem, fun hreads => hends hreads fun hc => by cases hc⟩
      | ok found =>
        rw [bind_of_ok hblock] at hrun
        cases found with
        | some inode =>
          cases hrun
          exact ⟨hmem, fun hreads => hends hreads fun hc => by cases hc⟩
        | none =>
          obtain ⟨hmem', hrest⟩ := ih (by omega) (hkept' rfl) hrun
          exact ⟨fun k hk => hmem' k (hmem k hk),
            fun hreads => hends (fun k hk => hreads k (hmem' k hk)) fun _ => hrest hreads⟩

/-- **What a run over a block gives**, by what a walk from there finds. -/
theorem visits_scanBlock {places : List ℕ} {found : Option (Except String ℕ)} (hready : v.Ready)
    (hb : b < dirBlocks dir v.fs.blockSize) (hkept : Kept v s.volume) (hlen : places.length < fuel)
    (hvisits : Visits (advance v dir) (outcome v dir name) (dirEnd v dir) (place v b x) places found)
    (hinside : ∀ y ∈ places, Inside v dir name y) (hreads : ∀ k ∈ s.reads, k < v.fs.blockSize) : ∃ res s',
      scanBlock l dir name v.fs.blockSize b fuel x s = some (res, s') ∧ (∀ k ∈ s'.reads, k < v.fs.blockSize) ∧
      ((res = .ok none ∧ Kept v s'.volume ∧ ∃ rest, rest.length ≤ places.length ∧
          Visits (advance v dir) (outcome v dir name) (dirEnd v dir) ((b + 1) * v.fs.blockSize) rest found ∧
          ∀ y ∈ rest, Inside v dir name y) ∨
        (∃ e, found = some (.error e) ∧ res = .error e) ∨
        ∃ n w w' r, found = some (.ok n) ∧ Kept v w ∧ readInode l n w = some (r, w') ∧ res = r.map some) := by
  induction fuel generalizing x s places with
  | zero => exact absurd hlen (Nat.not_lt_zero _)
  | succ fuel ih =>
    by_cases hx : x < v.fs.blockSize
    swap
    · rw [place_end (Nat.not_lt.mp hx)] at hvisits
      exact ⟨_, s, scanBlock_end (Nat.not_lt.mp hx), hreads, Or.inl ⟨rfl, hkept, places, Nat.le_refl _, hvisits, hinside⟩⟩
    have hlt := place_lt hb hx
    cases places with
    | nil => exact absurd hlt (Nat.not_lt.mpr hvisits.1)
    | cons y places =>
      obtain ⟨rfl, -, hgoes⟩ := hvisits
      obtain ⟨hhere, hrest⟩ := List.forall_mem_cons.mp hinside
      cases hm : blockOf v dir b with
      | error e =>
        obtain ⟨w, hstep⟩ := scanBlock_error l name hready hkept hm hx
        refine ⟨_, _, hstep fuel, hreads, Or.inr (Or.inl ⟨e, ?_, rfl⟩)⟩
        rw [outcome_error hx hm] at hgoes
        obtain ⟨hc, -⟩ | ⟨o, ho, -, rfl⟩ := hgoes
        · cases hc
        · exact ho.symm
      | ok m =>
        obtain ⟨w, m', hkept', hat, hstep⟩ := scanBlock_step l name hready hkept hm hx
        obtain ⟨hplaces, hmatch, hnext⟩ := entryPlaces_congr hat ((inside_place hx).mp hhere m hm)
        have hreads' : ∀ k ∈ s.reads ++ entryPlaces m' name x, k < v.fs.blockSize := by
          rw [hplaces]
          exact List.forall_mem_append.mpr ⟨hreads, (inside_place hx).mp hhere m hm⟩
        rw [hstep, hmatch]
        rw [outcome_ok hx hm, place_advance hx hm] at hgoes
        cases hfound : entryMatch m name x with
        | none =>
          rw [hfound] at hgoes
          obtain ⟨-, hvisits⟩ | ⟨o, ho, -⟩ := hgoes
          · rw [List.length_cons] at hlen
            rw [hnext]
            obtain ⟨res, s', hrun, hreads'', hres⟩ := ih (s := ⟨w, s.reads ++ entryPlaces m' name x⟩) hkept' (by omega)
              hvisits hrest hreads'
            refine ⟨res, s', hrun, hreads'', hres.imp_left fun ⟨hnone, hk, rest, hle, hv⟩ => ?_⟩
            exact ⟨hnone, hk, rest, by rw [List.length_cons]; omega, hv⟩
          · cases ho
        | some n =>
          rw [hfound] at hgoes
          obtain ⟨hc, -⟩ | ⟨o, ho, -, rfl⟩ := hgoes
          · cases hc
          · cases ho
            obtain ⟨r, w', hread, hrun⟩ := readFound_eq (l := l) n w (s.reads ++ entryPlaces m' name x)
            exact ⟨_, _, hrun, hreads', Or.inr (Or.inr ⟨n, w, w', r, rfl, hkept', hread, rfl⟩)⟩

/-- What `get_subdir` gives, by what the walk finds. -/
def Gives (l : Ext4Layout) (v : Volume) (res : Except String Ext4InodeRef) : Option (Except String ℕ) → Prop
  | none => res = .error "directory entry not found"
  | some (.error e) => res = .error e
  | some (.ok n) => ∃ w w', Kept v w ∧ readInode l n w = some (res, w')

/-- **What a run over all blocks gives**. -/
theorem visits_scanBlocks {n : ℕ} {places : List ℕ} {found : Option (Except String ℕ)} (hready : v.Ready)
    (hn : b + n = dirBlocks dir v.fs.blockSize) (hkept : Kept v s.volume) (hlen : places.length < fuel)
    (hvisits : Visits (advance v dir) (outcome v dir name) (dirEnd v dir) (b * v.fs.blockSize) places found)
    (hinside : ∀ y ∈ places, Inside v dir name y) (hreads : ∀ k ∈ s.reads, k < v.fs.blockSize) : ∃ res s',
      scanBlocks l dir name v.fs.blockSize fuel n b s = some (res, s') ∧ (∀ k ∈ s'.reads, k < v.fs.blockSize) ∧
        Gives l v res found := by
  induction n generalizing b s places with
  | zero =>
    refine ⟨_, s, rfl, hreads, ?_⟩
    cases places with
    | nil =>
      rw [hvisits.2]
      rfl
    | cons y places =>
      have hlt := hvisits.2.1
      unfold dirEnd at hlt
      rw [← hn, Nat.add_zero] at hlt
      exact absurd hlt (Nat.lt_irrefl _)
  | succ n ih =>
    rw [← place_zero] at hvisits
    obtain ⟨res, s₁, hrun, hreads₁, hres⟩ := visits_scanBlock (l := l) hready (by omega) hkept hlen hvisits hinside hreads
    unfold scanBlocks
    rcases hres with ⟨rfl, hkept₁, rest, hle, hvisits', hinside'⟩ | ⟨e, rfl, rfl⟩ | ⟨m, w, w', r, rfl, hw, hread, rfl⟩
    · rw [bind_of_ok hrun]
      exact ih (by omega) hkept₁ (by omega) hvisits' hinside' hreads₁
    · exact ⟨_, s₁, bind_of_error hrun, hreads₁, rfl⟩
    · cases r with
      | error e => exact ⟨_, s₁, bind_of_error hrun, hreads₁, w, w', hw, hread⟩
      | ok r =>
        rw [bind_of_ok hrun]
        exact ⟨_, s₁, rfl, hreads₁, w, w', hw, hread⟩

end Runs

/-! ### Safe walks -/

section Safe

variable (l : Ext4Layout) (v : Volume) (dir : Ext4InodeRef) (name : List (BitVec 8))

/-- The entries of a block lie one behind the other, from its start to its end. -/
def Tiles (m : Memory) (size : ℕ) (entries : List ℕ) : Prop :=
  Leads id (fun x => entryField m x .recLen) 0 entries size ∧ ∀ x ∈ entries, 0 < entryField m x .recLen

/-- The inodes and names of the entries of the first `n` blocks. -/
def dirEntries (n : ℕ) (m : ℕ → Memory) (entries : ℕ → List ℕ) : List (ℕ × List (BitVec 8)) :=
  (List.range n).flatMap fun b => (entries b).map fun x => (entryField (m b) x .inode, entryName (m b) x)

/-- **A walk over a directory is safe**: it ends, and reads only bytes of the block that it is
examining; and if the entries tile the blocks, it gives the inode of the first that is in use and has
the name, or says that there is none. -/
structure WalksSafely : Prop where
  ends : ∃ fuel res s, getSubdir l dir name fuel ⟨v, []⟩ = some (res, s) ∧ ∀ k ∈ s.reads, k < v.fs.blockSize
  finds : ∀ m entries, (∀ b < dirBlocks dir v.fs.blockSize,
      blockOf v dir b = .ok (m b) ∧ Tiles (m b) v.fs.blockSize (entries b)) →
    ∃ fuel res s, getSubdir l dir name fuel ⟨v, []⟩ = some (res, s) ∧
      match (dirEntries (dirBlocks dir v.fs.blockSize) m entries).find? fun e => e.1 ≠ 0 ∧ e.2 = name with
      | none => res = .error "directory entry not found"
      | some e => ∃ w w', Kept v w ∧ readInode l e.1 w = some (res, w')

variable {l v dir name} {b n : ℕ} {m : Memory} {contents : ℕ → Memory} {entries : ℕ → List ℕ}

variable (name) in
/-- The places of the entries of a block. -/
theorem tiles_places {as : List ℕ} {a : ℕ} (hm : blockOf v dir b = .ok m)
    (h : Leads id (fun x => entryField m x .recLen) a as v.fs.blockSize) (hpos : ∀ x ∈ as, 0 < entryField m x .recLen) :
    Leads id (advance v dir) (place v b a) (as.map (place v b)) ((b + 1) * v.fs.blockSize) ∧
      (∀ y ∈ as.map (place v b), 0 < advance v dir y) ∧
      (as.map (place v b)).findSome? (outcome v dir name) =
        ((as.map fun x => (entryField m x .inode, entryName m x)).find? fun e => e.1 ≠ 0 ∧ e.2 = name).map
          fun e => .ok e.1 := by
  induction as generalizing a with
  | nil =>
    obtain rfl : a = v.fs.blockSize := h
    exact ⟨place_end (Nat.le_refl _), fun y hy => absurd hy List.not_mem_nil, rfl⟩
  | cons x as ih =>
    have hx : x < v.fs.blockSize := h.lt hpos x List.mem_cons_self
    obtain ⟨rfl, hrest⟩ := h
    obtain ⟨hlen, hall⟩ := List.forall_mem_cons.mp hpos
    obtain ⟨hleads, hadvance, hfind⟩ := ih hrest hall
    have hnext := place_advance hx hm
    rw [List.map_cons, List.map_cons, List.findSome?_cons, List.find?_cons, outcome_ok hx hm]
    refine ⟨⟨rfl, ?_⟩, List.forall_mem_cons.mpr ⟨?_, hadvance⟩, ?_⟩
    · show Leads id _ (place v b x + advance v dir (place v b x)) _ _
      rw [hnext]
      exact hleads
    · unfold place at hnext
      unfold place
      omega
    · unfold entryMatch
      by_cases hfound : entryField m x .inode ≠ 0 ∧ entryName m x = name
      · rw [if_pos hfound, decide_eq_true hfound]
        rfl
      · rw [if_neg hfound, decide_eq_false hfound]
        exact hfind

variable (name) in
/-- **The places of all entries** are one walk. -/
theorem tiles_leads (htiles : ∀ b < n, blockOf v dir b = .ok (contents b) ∧ Tiles (contents b) v.fs.blockSize (entries b)) :
    Leads id (advance v dir) 0 ((List.range n).flatMap fun b => (entries b).map (place v b)) (n * v.fs.blockSize) ∧
      (∀ y ∈ (List.range n).flatMap fun b => (entries b).map (place v b), 0 < advance v dir y) ∧
      ((List.range n).flatMap fun b => (entries b).map (place v b)).findSome? (outcome v dir name) =
        ((dirEntries n contents entries).find? fun e => e.1 ≠ 0 ∧ e.2 = name).map fun e => .ok e.1 := by
  induction n with
  | zero => exact ⟨(Nat.zero_mul _).symm, fun y hy => absurd hy List.not_mem_nil, rfl⟩
  | succ n ih =>
    obtain ⟨hleads, hpos, hfind⟩ := ih fun b hb => htiles b (Nat.lt_succ_of_lt hb)
    obtain ⟨hm, htile, hlen⟩ := htiles n (Nat.lt_succ_self n)
    obtain ⟨hleads', hpos', hfind'⟩ := tiles_places name hm htile hlen
    unfold dirEntries at hfind ⊢
    rw [place_zero] at hleads'
    rw [List.range_succ, List.flatMap_append, List.flatMap_append, List.flatMap_singleton, List.flatMap_singleton,
      List.findSome?_append, List.find?_append, hfind, hfind', Option.map_or]
    exact ⟨hleads.append hleads', List.forall_mem_append.mpr ⟨hpos, hpos'⟩, rfl⟩

theorem getSubdir_eq (fuel : ℕ) (v : Volume) : getSubdir l dir name fuel ⟨v, []⟩ =
    scanBlocks l dir name v.fs.blockSize fuel (dirBlocks dir v.fs.blockSize) 0 ⟨v, []⟩ := rfl

/-- A walk that ends, and stays inside, is safe. -/
theorem walksSafely_of_ends (hready : v.Ready) (hends : Ends v dir name 0) : WalksSafely l v dir name := by
  obtain ⟨places, found, hvisits, hinside⟩ := hends
  have hvisits₀ := hvisits
  rw [← Nat.zero_mul v.fs.blockSize] at hvisits
  obtain ⟨res, s, hrun, hreads, hgives⟩ := visits_scanBlocks (l := l) (s := ⟨v, []⟩) hready (Nat.zero_add _)
    (Kept.refl hready) (Nat.lt_succ_self places.length) hvisits hinside fun k hk => absurd hk List.not_mem_nil
  refine ⟨⟨_, res, s, hrun, hreads⟩, fun m entries htiles => ⟨_, res, s, hrun, ?_⟩⟩
  obtain ⟨hleads, hpos, hfind⟩ := tiles_leads name htiles
  obtain ⟨places', -, hvisits'⟩ := Lib.visits_find (outcome v dir name) hleads hpos
  have hfound := hvisits₀.unique hvisits'
  rw [hfind] at hfound
  rw [hfound] at hgives
  cases hentry : (dirEntries (dirBlocks dir v.fs.blockSize) m entries).find? fun e => e.1 ≠ 0 ∧ e.2 = name with
  | none =>
    rw [hentry] at hgives
    exact hgives
  | some e =>
    rw [hentry] at hgives
    exact hgives

theorem ends_of_walksSafely (hready : v.Ready) (h : WalksSafely l v dir name) : Ends v dir name 0 := by
  obtain ⟨fuel, res, s, hrun, hreads⟩ := h.ends
  rw [getSubdir_eq] at hrun
  have hends := (scanBlocks_ends (s := ⟨v, []⟩) hready (Nat.zero_add _) (Kept.refl hready) hrun).2 hreads
  rwa [Nat.zero_mul] at hends

/-- The next place is another one if and only if the length of the entry is not zero. -/
theorem advance_ne_zero {y : ℕ} (hm : blockOf v dir (y / v.fs.blockSize) = .ok m) :
    advance v dir y ≠ 0 ↔ entryField m (y % v.fs.blockSize) .recLen ≠ 0 := by
  have hlt := Nat.mod_lt y v.fs.blockSize_pos
  unfold advance
  rw [hm]
  dsimp only
  omega

/-- **A walk over a directory is safe** if and only if of every entry that it comes to only bytes of the block
are looked at, and its length is not zero, unless it is the one that is looked for. -/
theorem walksSafely_iff (hready : v.Ready) : WalksSafely l v dir name ↔
    ∀ y, Reaches (advance v dir) (outcome v dir name) (dirEnd v dir) 0 y →
      ∀ m, blockOf v dir (y / v.fs.blockSize) = .ok m →
        (∀ k ∈ entryPlaces m name (y % v.fs.blockSize), k < v.fs.blockSize) ∧
          (entryMatch m name (y % v.fs.blockSize) = none → entryField m (y % v.fs.blockSize) .recLen ≠ 0) := by
  have hends : WalksSafely l v dir name ↔ Ends v dir name 0 :=
    ⟨ends_of_walksSafely hready, walksSafely_of_ends hready⟩
  rw [hends]
  refine (Lib.exists_visits_iff _ _ _).trans (forall_congr' fun y => imp_congr_right fun _ => ?_)
  constructor
  · rintro ⟨hinside, hgoes⟩ m hm
    refine ⟨hinside m hm, fun hnone => (advance_ne_zero hm).mp (hgoes ?_)⟩
    unfold outcome
    rw [hm]
    dsimp only
    rw [hnone]
    rfl
  · intro h
    refine ⟨fun m hm => (h m hm).1, fun hnone => ?_⟩
    unfold outcome at hnone
    cases hm : blockOf v dir (y / v.fs.blockSize) with
    | error e =>
      rw [hm] at hnone
      cases hnone
    | ok m =>
      rw [hm] at hnone
      exact (advance_ne_zero hm).mpr ((h m hm).2 (Option.map_eq_none_iff.mp hnone))

/-- A walk does not leave an entry whose length is zero. -/
theorem scanBlock_endless {s : DirWalk} {x : ℕ} (fuel : ℕ) (hready : v.Ready) (hkept : Kept v s.volume)
    (hm : blockOf v dir b = .ok m) (hx : x < v.fs.blockSize) (hin : ∀ k ∈ entryPlaces m name x, k < v.fs.blockSize)
    (hnone : entryMatch m name x = none) (hzero : entryField m x .recLen = 0) :
    scanBlock l dir name v.fs.blockSize b fuel x s = none := by
  induction fuel generalizing s with
  | zero => rfl
  | succ fuel ih =>
    obtain ⟨w, m', hkept', hat, hstep⟩ := scanBlock_step l name hready hkept hm hx
    obtain ⟨-, hmatch, hlen⟩ := entryPlaces_congr hat hin
    rw [hstep, hmatch, hnone, hlen, hzero]
    exact ih (s := ⟨w, s.reads ++ entryPlaces m' name x⟩) hkept'

/-- A directory of one block, the block 100 of the disk. -/
def oneBlockDir : Ext4InodeRef :=
  ⟨2, fun x => if x = 5 then 4 else if x = 28 then 2 else if x = 40 then 100 else 0⟩

theorem walksSafely_zeros : WalksSafely smallSlots oneGroup oneBlockDir [97#8] ↔
    ∀ y, Reaches (advance oneGroup oneBlockDir) (outcome oneGroup oneBlockDir [97#8]) (dirEnd oneGroup oneBlockDir) 0 y →
      ∀ m, blockOf oneGroup oneBlockDir (y / oneGroup.fs.blockSize) = .ok m →
        (∀ k ∈ entryPlaces m [97#8] (y % oneGroup.fs.blockSize), k < oneGroup.fs.blockSize) ∧
          (entryMatch m [97#8] (y % oneGroup.fs.blockSize) = none → entryField m (y % oneGroup.fs.blockSize) .recLen ≠ 0) :=
  walksSafely_iff oneGroup_ready

/-- The block has zeros only: the walk for a name does not end. -/
theorem zeros_endless : blockOf oneGroup oneBlockDir 0 = .ok (oneGroup.fs.content 100) ∧
    (∀ fuel, getSubdir smallSlots oneBlockDir [97#8] fuel ⟨oneGroup, []⟩ = none) ∧
    ¬ WalksSafely smallSlots oneGroup oneBlockDir [97#8] := by
  have hblock : blockOf oneGroup oneBlockDir 0 = .ok (oneGroup.fs.content 100) := rfl
  have hnone : ∀ fuel, getSubdir smallSlots oneBlockDir [97#8] fuel ⟨oneGroup, []⟩ = none := fun fuel => by
    rw [getSubdir_eq]
    refine bind_of_none (scanBlock_endless fuel oneGroup_ready (Kept.refl oneGroup_ready) hblock ?_ ?_ ?_ ?_)
    · decide
    · decide
    · rfl
    · rfl
  refine ⟨hblock, hnone, fun h => ?_⟩
  obtain ⟨fuel, res, s, hrun, -⟩ := h.ends
  rw [hnone] at hrun
  cases hrun

end Safe

end Ext4
end WingOS
