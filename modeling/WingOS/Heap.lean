/-
# The heap

`malloc`, `calloc`, `realloc` and `free` of `walloc/liballoc.cpp`. A block has pages
of its own from `liballoc_alloc`, with a header (`WingosAllocNode`) in front of the
bytes of the client: the size that was asked for last and the number of pages.
`realloc` stays in the pages of the block as long as they are enough, and moves to
new ones else.

`liballoc_alloc` gives pages that no one has, with anything in them, or null
(`PageAnswer`). A run has any calls with any answers, and what the client writes
to its own blocks. The heap keeps its promises (`Promises`) in every run whose
calls are for sizes that do not wrap and get pages (`CallFits`): the sums
`len + 32` and its rounding, and the product of `calloc`, are taken modulo
`2 ^ 64` and not checked, and the header is written without a look at the pointer.

Key definitions: `Heap`, `kmalloc`, `kfree`, `krealloc`, `kcalloc`, `HeapRun`,
`Promises`, `CallFits`, `Inv`.
Key theorems: `kmalloc_spec`, `inv_malloc`, `inv_fill`, `inv_resize`, `inv_free`,
`inv_heapStep`, `heap_promises`.
-/
import WingOS.PmmSafe
import WingOS.Lib.Packed
import WingOS.Lib.Run

namespace WingOS

open Lib (Memory byteOf memcpy number)
open Function (update update_self update_of_ne)

inductive NodeField
  | magic | allocatedSize | pageCount | padding
  deriving DecidableEq

/-- `WingosAllocNode`. -/
def wingosAllocNode : Lib.Packed NodeField where
  fields := [.magic, .allocatedSize, .pageCount, .padding]
  size _ := 8

def ALLOC_MAGIC : ℕ := 0xDEADEEDEAD

/-- `n->f`, for the header at `n`. -/
def nodeGet (mem : Memory) (n : ℕ) (f : NodeField) : ℕ := wingosAllocNode.get (fun k => mem (n + k)) f

/-- `n->f = v`. -/
def nodeSet (mem : Memory) (n : ℕ) (f : NodeField) (v : ℕ) : Memory :=
  memcpy mem (n + wingosAllocNode.offset f) (byteOf v) 0 (wingosAllocNode.size f)

/-- What must not happen: `unreachable$`, a write through a null page pointer, and
pages that are freed and were not taken. -/
inductive HeapFault
  | unreachable
  | nullWrite
  | strayFree (base pages : ℕ)
  deriving DecidableEq

/-- The memory and the pages that are taken, as `liballoc_alloc` and `liballoc_free`
count them: where they start, and how many. -/
structure Heap where
  mem : Memory
  taken : List PageRange := []
  faults : List HeapFault := []

/-- An answer of the page allocator: the pages from `base` on, with `fresh` in
them. A null pointer is 0. -/
structure PageAnswer where
  base : ℕ
  fresh : Memory

instance (x y : PageRange) : Decidable (x.Apart y) := inferInstanceAs (Decidable (_ ∨ _))

namespace Heap

/-- The `l` pages from `base` on can be given. -/
def Fresh (h : Heap) (base l : ℕ) : Prop := base + 4096 * l ≤ 2 ^ 64 ∧ ∀ x ∈ h.taken, PageRange.Apart (base, l) x

instance (h : Heap) (base l : ℕ) : Decidable (h.Fresh base l) := inferInstanceAs (Decidable (_ ∧ _))

/-- `none` for an answer that is not possible. -/
def liballocAlloc (h : Heap) (a : PageAnswer) (l : ℕ) : Option (ℕ × Heap) :=
  if l = 0 ∨ a.base = 0 then some (0, h)
  else if h.Fresh a.base l then
    some (a.base, { h with mem := memcpy h.mem a.base a.fresh a.base (l * 4096), taken := (a.base, l) :: h.taken })
  else none

def liballocFree (h : Heap) (base l : ℕ) : Heap :=
  if h.taken.contains (base, l) then { h with taken := h.taken.erase (base, l) }
  else { h with faults := .strayFree base l :: h.faults }

def kmalloc (h : Heap) (a : PageAnswer) (len : ℕ) : Option (ℕ × Heap) :=
  let tlen := alignUp ((len + 32) % 2 ^ 64) 4096
  (h.liballocAlloc a (tlen / 4096)).map fun (n, h) =>
    let mem := nodeSet h.mem n .allocatedSize ((len + 32) % 2 ^ 64)
    let mem := nodeSet mem n .pageCount (tlen / 4096)
    let mem := nodeSet mem n .magic ALLOC_MAGIC
    (n + 32, { h with mem, faults := if n = 0 then .nullWrite :: h.faults else h.faults })

def kfree (h : Heap) (ptr : ℕ) : Heap :=
  if ptr = 0 then h
  else
    let n := ptr - 32
    if nodeGet h.mem n .magic ≠ ALLOC_MAGIC then { h with faults := .unreachable :: h.faults }
    else h.liballocFree n (nodeGet h.mem n .pageCount)

/-- The loop of `realloc`: `count` bytes, one after the other. -/
def copyBytes (targ src : ℕ) : (count : ℕ) → Memory → Memory
  | 0, mem => mem
  | i + 1, mem =>
    let mem := copyBytes targ src i mem
    update mem (targ + i) (mem (src + i))

def krealloc (h : Heap) (a : PageAnswer) (ptr len : ℕ) : Option (ℕ × Heap) :=
  if ptr = 0 then h.kmalloc a len
  else
    let n := ptr - 32
    let want := (len + 32) % 2 ^ 64
    if want < nodeGet h.mem n .allocatedSize then
      some (ptr, { h with mem := nodeSet h.mem n .allocatedSize want })
    else if want < nodeGet h.mem n .pageCount * 4096 % 2 ^ 64 then
      some (ptr, { h with mem := nodeSet h.mem n .allocatedSize want })
    else
      let oldSize := (nodeGet h.mem n .allocatedSize + (2 ^ 64 - 32)) % 2 ^ 64
      (h.kmalloc a len).map fun (targ, h) => (targ, { h with mem := copyBytes targ ptr oldSize h.mem }.kfree ptr)

def kcalloc (h : Heap) (a : PageAnswer) (n size : ℕ) : Option (ℕ × Heap) :=
  (h.kmalloc a (n * size % 2 ^ 64)).map fun (p, h) =>
    (p, { h with mem := memcpy h.mem p (fun _ => 0) 0 (n * size % 2 ^ 64) })

end Heap

/-! ### Clients -/

/-- A live block, as its owner knows it: the bytes that it asked for, and what is
in them, where it can know. -/
structure Block where
  size : ℕ
  known : ℕ → Option (BitVec 8) := fun _ => none

/-- What is known of it after `realloc` to `len` bytes. -/
def Block.resize (b : Block) (len : ℕ) : Block where
  size := len
  known k := if k < min b.size len then b.known k else none

structure HeapRun where
  heap : Heap
  blocks : ℕ → Option Block := fun _ => none

inductive HeapCall
  | malloc (a : PageAnswer) (len : ℕ)
  | calloc (a : PageAnswer) (n size : ℕ)
  | realloc (a : PageAnswer) (ptr len : ℕ)
  | free (ptr : ℕ)
  | write (ptr k : ℕ) (v : BitVec 8)

namespace HeapRun

/-- A call, or a byte that a client writes to one of its blocks. `none` when the
block is not live, or the answer of the page allocator not possible. -/
def step (s : HeapRun) : HeapCall → Option HeapRun
  | .malloc a len => (s.heap.kmalloc a len).map fun (p, heap) =>
    { heap, blocks := update s.blocks p (some { size := len }) }
  | .calloc a n size => (s.heap.kcalloc a n size).map fun (p, heap) =>
    { heap, blocks := update s.blocks p (some { size := n * size, known := fun _ => some 0 }) }
  | .realloc a ptr len =>
    if ptr = 0 then
      (s.heap.krealloc a 0 len).map fun (p, heap) => { heap, blocks := update s.blocks p (some { size := len }) }
    else (s.blocks ptr).bind fun b => (s.heap.krealloc a ptr len).map fun (p, heap) =>
      { heap, blocks := update (update s.blocks ptr none) p (some (b.resize len)) }
  | .free ptr =>
    if ptr = 0 then some { s with heap := s.heap.kfree 0 }
    else (s.blocks ptr).map fun _ => { heap := s.heap.kfree ptr, blocks := update s.blocks ptr none }
  | .write ptr k v => (s.blocks ptr).bind fun b =>
    if k < b.size then
      some { heap := { s.heap with mem := update s.heap.mem (ptr + k) v }
             blocks := update s.blocks ptr (some { b with known := update b.known k (some v) }) }
    else none

/-- **What the heap promises**: each live block is inside pages of its own, the
blocks and their pages are apart, what the owners know of their bytes is there,
and no pages are taken but theirs. -/
structure Promises (s : HeapRun) : Prop where
  inside : ∀ p b, s.blocks p = some b → ∃ l, (p - 32, l) ∈ s.heap.taken ∧ p - 32 < p ∧
    p + b.size ≤ p - 32 + 4096 * l
  pages : s.heap.taken.Pairwise PageRange.Apart
  apart : ∀ p q b c, s.blocks p = some b → s.blocks q = some c → p ≠ q → p + b.size ≤ q ∨ q + c.size ≤ p
  kept : ∀ p b k v, s.blocks p = some b → k < b.size → b.known k = some v → s.heap.mem (p + k) = v
  used : ∀ x ∈ s.heap.taken, ∃ b, s.blocks (x.1 + 32) = some b
  clean : s.heap.faults = []

/-- A size that gets its pages: neither the header nor the rounding wraps, and the
page allocator gives something. -/
def Gets (a : PageAnswer) (len : ℕ) : Prop := len + 32 + 4095 < 2 ^ 64 ∧ a.base ≠ 0

/-- The calls that the heap handles. -/
def CallFits (s : HeapRun) : HeapCall → Prop
  | .malloc a len => Gets a len
  | .calloc a n size => n * size < 2 ^ 64 ∧ Gets a (n * size)
  | .realloc a ptr len => if ptr = 0 then Gets a len else
      len + 32 < 2 ^ 64 ∧ (nodeGet s.heap.mem (ptr - 32) .pageCount * 4096 ≤ len + 32 → Gets a len)
  | _ => True

/-- The header of a block, in its pages. -/
structure Live (h : Heap) (n size l : ℕ) : Prop where
  taken : (n, l) ∈ h.taken
  magic : nodeGet h.mem n .magic = ALLOC_MAGIC
  allocated : nodeGet h.mem n .allocatedSize = size + 32
  pageCount : nodeGet h.mem n .pageCount = l
  fits : size + 32 ≤ 4096 * l

structure Inv (s : HeapRun) : Prop where
  stretches : ∀ x ∈ s.heap.taken, 0 < x.1 ∧ 0 < x.2 ∧ x.1 + 4096 * x.2 ≤ 2 ^ 64
  pages : s.heap.taken.Pairwise PageRange.Apart
  live : ∀ p b, s.blocks p = some b → ∃ n l, p = n + 32 ∧ Live s.heap n b.size l
  kept : ∀ p b k v, s.blocks p = some b → k < b.size → b.known k = some v → s.heap.mem (p + k) = v
  used : ∀ x ∈ s.heap.taken, ∃ b, s.blocks (x.1 + 32) = some b
  clean : s.heap.faults = []

instance (a : PageAnswer) (len : ℕ) : Decidable (Gets a len) := inferInstanceAs (Decidable (_ ∧ _))

instance (s : HeapRun) : DecidablePred s.CallFits := fun a => by
  unfold CallFits
  split <;> infer_instance

end HeapRun

/-! ### The header -/

section Header

variable {mem mem' : Memory} {n : ℕ} {f g : NodeField} {v : ℕ}

/-- The store of a field, seen from the header. -/
theorem nodeSet_view : (fun k => nodeSet mem n f v (n + k)) = wingosAllocNode.set (fun k => mem (n + k)) f v := by
  funext k
  unfold nodeSet Lib.Packed.set memcpy
  rw [show n + k - (n + wingosAllocNode.offset f) = k - wingosAllocNode.offset f by omega]
  exact if_congr (by omega) rfl rfl

theorem nodeGet_nodeSet (hv : v < 2 ^ 64) : nodeGet (nodeSet mem n f v) n f = v := by
  unfold nodeGet
  rw [nodeSet_view, Lib.Packed.get_set]
  exact Nat.mod_eq_of_lt hv

theorem nodeGet_nodeSet_of_ne (h : f ≠ g) : nodeGet (nodeSet mem n f v) n g = nodeGet mem n g := by
  have hmem : ∀ f, f ∈ wingosAllocNode.fields := by
    intro f
    cases f <;> decide
  unfold nodeGet
  rw [nodeSet_view]
  exact Lib.Packed.number_memcpy_of_ne h (hmem f) (hmem g) ⟨Nat.le_refl _, Nat.le_refl _⟩
    ⟨Nat.le_refl _, Nat.le_refl _⟩

theorem offset_lt (f : NodeField) : wingosAllocNode.offset f + wingosAllocNode.size f ≤ 32 := by
  cases f <;> decide

/-- A store to the header changes nothing behind it. -/
theorem nodeSet_of_out {x : ℕ} (hx : x < n ∨ n + 32 ≤ x) : nodeSet mem n f v x = mem x := by
  have := offset_lt f
  unfold nodeSet memcpy
  exact if_neg (by omega)

/-- What a header has depends on its 32 bytes. -/
theorem nodeGet_congr (h : ∀ k < 32, mem (n + k) = mem' (n + k)) : nodeGet mem n f = nodeGet mem' n f := by
  have hoff := offset_lt f
  exact Lib.number_congr fun i hi => h _ (by omega)

end Header
/-! ### The calls -/

namespace Heap

variable {h h' : Heap} {a : PageAnswer} {len p : ℕ}

/-- The pages that a size gets. -/
def pagesFor (len : ℕ) : ℕ := (len + 32 + 4095) / 4096

theorem le_pagesFor (len : ℕ) : len + 32 ≤ 4096 * pagesFor len := by
  unfold pagesFor
  omega

theorem pagesFor_le (len : ℕ) : 4096 * pagesFor len ≤ len + 32 + 4095 := Nat.mul_div_le _ _

theorem pagesFor_pos (len : ℕ) : 0 < pagesFor len := by
  have := le_pagesFor len
  omega

theorem alignUp_pages (hlen : len + 32 + 4095 < 2 ^ 64) :
    alignUp ((len + 32) % 2 ^ 64) 4096 / 4096 = pagesFor len := by
  rw [show (4096 : ℕ) = 2 ^ 12 from rfl, alignUp_eq (by decide), Nat.mul_div_cancel_left _ (by decide),
    Nat.mod_eq_of_lt (show len + 32 < 2 ^ 64 by omega), Nat.mod_eq_of_lt (by omega)]
  rfl

/-- A loop that copies to a place apart from where it reads. -/
theorem copyBytes_eq {targ src : ℕ} {mem : Memory} : ∀ {count : ℕ},
    (targ + count ≤ src ∨ src + count ≤ targ) → copyBytes targ src count mem = memcpy mem targ mem src count
  | 0, _ => Lib.memcpy_zero.symm
  | i + 1, hapart => by
    have ih : copyBytes targ src i mem = memcpy mem targ mem src i := copyBytes_eq (by omega)
    rw [copyBytes, ih]
    funext x
    have hsrc : memcpy mem targ mem src i (src + i) = mem (src + i) := by
      unfold memcpy
      exact if_neg (by omega)
    by_cases hx : x = targ + i
    · rw [hx, update_self, hsrc, Lib.memcpy_of_mem (Nat.lt_succ_self i)]
    · rw [update_of_ne hx]
      exact if_congr (by omega) rfl rfl

/-- What `malloc` makes, for a size that gets its pages. -/
theorem kmalloc_spec (hgets : HeapRun.Gets a len) (hs : h.kmalloc a len = some (p, h')) :
    h.Fresh a.base (pagesFor len) ∧ p = a.base + 32 ∧ h'.taken = (a.base, pagesFor len) :: h.taken ∧
      h'.faults = h.faults ∧ HeapRun.Live h' a.base len (pagesFor len) ∧
      ∀ x, x < a.base ∨ a.base + 4096 * pagesFor len ≤ x → h'.mem x = h.mem x := by
  have hle := le_pagesFor len
  have hpos := pagesFor_pos len
  unfold kmalloc at hs
  dsimp only at hs
  rw [alignUp_pages hgets.1, Nat.mod_eq_of_lt (show len + 32 < 2 ^ 64 by have := hgets.1; omega)] at hs
  obtain ⟨⟨n, h1⟩, hget, heq⟩ := Option.map_eq_some_iff.mp hs
  unfold liballocAlloc at hget
  rw [if_neg (by rintro (h0 | h0) <;> [omega; exact hgets.2 h0])] at hget
  split at hget
  · rename_i hfresh
    obtain ⟨rfl, rfl⟩ := Prod.mk.inj (Option.some.inj hget)
    obtain ⟨rfl, rfl⟩ := Prod.mk.inj heq
    refine ⟨hfresh, rfl, rfl, if_neg hgets.2, ⟨List.mem_cons_self, ?_, ?_, ?_, hle⟩, fun x hx => ?_⟩
    · exact nodeGet_nodeSet (by decide)
    · show nodeGet (nodeSet (nodeSet (nodeSet _ _ _ _) _ _ _) _ _ _) _ _ = _
      rw [nodeGet_nodeSet_of_ne (by decide), nodeGet_nodeSet_of_ne (by decide), nodeGet_nodeSet]
      have := hgets.1
      omega
    · show nodeGet (nodeSet (nodeSet (nodeSet _ _ _ _) _ _ _) _ _ _) _ _ = _
      rw [nodeGet_nodeSet_of_ne (by decide), nodeGet_nodeSet]
      have := hgets.1
      have := pagesFor_le len
      omega
    · have hout : x < a.base ∨ a.base + 32 ≤ x := by omega
      show nodeSet (nodeSet (nodeSet _ _ _ _) _ _ _) _ _ _ x = _
      rw [nodeSet_of_out hout, nodeSet_of_out hout, nodeSet_of_out hout]
      exact if_neg (by omega)
  · cases hget

end Heap

namespace HeapRun

variable {s s' : HeapRun} {h h' : Heap} {n l size p : ℕ} {b : Block}

/-- What a block has is in its header and in the pages that are taken. -/
theorem Live.frame (hl : Live h n size l) (htaken : (n, l) ∈ h'.taken)
    (hmem : ∀ x, n ≤ x → x < n + 32 → h'.mem x = h.mem x) : Live h' n size l := by
  have hget : ∀ f, nodeGet h'.mem n f = nodeGet h.mem n f := fun f =>
    nodeGet_congr fun k hk => hmem (n + k) (Nat.le_add_right n k) (by omega)
  exact ⟨htaken, (hget _).trans hl.magic, (hget _).trans hl.allocated, (hget _).trans hl.pageCount, hl.fits⟩

/-- **Two blocks** have different pages, with no address in common. -/
theorem Inv.pages_apart (hI : s.Inv) {x y : PageRange} (hx : x ∈ s.heap.taken) (hy : y ∈ s.heap.taken)
    (hne : x.1 ≠ y.1) : x.Apart y :=
  hI.pages.forall hx hy fun heq => hne (congrArg Prod.fst heq)

theorem Inv.live_apart (hI : s.Inv) {q m k size' : ℕ} (hp : p = n + 32) (hb : Live s.heap n size l)
    (hq : q = m + 32) (hc : Live s.heap m size' k) (hne : p ≠ q) : PageRange.Apart (n, l) (m, k) :=
  hI.pages_apart hb.taken hc.taken (by simp only; omega)

/-- No pages are taken twice. -/
theorem Inv.nodup (hI : s.Inv) : s.heap.taken.Nodup :=
  hI.pages.imp_of_mem fun {x y} hx _ (hapart : _ ∨ _) heq => by
    have hpos := (hI.stretches x hx).2.1
    subst heq
    omega

theorem Inv.eq_of_base (hI : s.Inv) {x y : PageRange} (hx : x ∈ s.heap.taken) (hy : y ∈ s.heap.taken)
    (hbase : x.1 = y.1) : x = y := by
  by_contra hne
  have hapart : _ ∨ _ := hI.pages.forall hx hy hne
  have := (hI.stretches x hx).2.1
  have := (hI.stretches y hy).2.1
  omega

/-- A block after one pointer is given another one. -/
theorem block_update {blocks : ℕ → Option Block} {q : ℕ} {v : Option Block}
    (hb : update blocks p v q = some b) : q = p ∧ v = some b ∨ q ≠ p ∧ blocks q = some b := by
  by_cases hq : q = p
  · subst hq
    exact .inl ⟨rfl, (update_self q v blocks).symm.trans hb⟩
  · exact .inr ⟨hq, (update_of_ne hq v blocks).symm.trans hb⟩

/-- **The promises** follow. -/
theorem Inv.promises (hI : s.Inv) : s.Promises where
  inside p b hb := by
    obtain ⟨n, l, rfl, hlive⟩ := hI.live p b hb
    have := hlive.fits
    exact ⟨l, by rw [Nat.add_sub_cancel]; exact hlive.taken, by omega, by omega⟩
  pages := hI.pages
  apart p q b c hb hc hne := by
    obtain ⟨n, l, hp, hlive⟩ := hI.live p b hb
    obtain ⟨m, k, hq, hlive'⟩ := hI.live q c hc
    have hfits := hlive.fits
    have hfits' := hlive'.fits
    have hapart : n + 4096 * l ≤ m ∨ m + 4096 * k ≤ n := hI.live_apart hp hlive hq hlive' hne
    omega
  kept := hI.kept
  used := hI.used
  clean := hI.clean

theorem inv_start {mem : Memory} : Inv { heap := { mem } } where
  stretches := nofun
  pages := .nil
  live := nofun
  kept := nofun
  used := nofun
  clean := rfl

/-- **New pages** for a block that asked for `len` bytes. -/
theorem inv_malloc (hI : s.Inv) {a : PageAnswer} {len : ℕ} (hgets : Gets a len)
    (hs : s.heap.kmalloc a len = some (p, h')) :
    s.blocks p = none ∧ Inv { heap := h', blocks := update s.blocks p (some { size := len }) } := by
  obtain ⟨hfresh, rfl, htaken, hfaults, hlive, hmem⟩ := Heap.kmalloc_spec hgets hs
  have hpos := Heap.pagesFor_pos len
  -- the pages of the other blocks are apart from the new ones
  have hother : ∀ q c, s.blocks q = some c → ∃ n l, q = n + 32 ∧ Live s.heap n c.size l ∧
      (a.base + 4096 * Heap.pagesFor len ≤ n ∨ n + 4096 * l ≤ a.base) := fun q c hc => by
    obtain ⟨n, l, hq, hlive⟩ := hI.live q c hc
    exact ⟨n, l, hq, hlive, hfresh.2 _ hlive.taken⟩
  have hnew : s.blocks (a.base + 32) = none := by
    cases hb : s.blocks (a.base + 32) with
    | none => rfl
    | some c =>
      obtain ⟨n, l, hn, hc, hapart⟩ := hother _ c hb
      have := hc.fits
      omega
  refine ⟨hnew, ?_, ?_, fun q c hc => ?_, fun q c k v hc hk hv => ?_, fun x hx => ?_, hfaults.trans hI.clean⟩
  · rw [htaken]
    intro x hx
    obtain rfl | hx := List.mem_cons.mp hx
    · exact ⟨Nat.pos_of_ne_zero hgets.2, hpos, hfresh.1⟩
    · exact hI.stretches x hx
  · rw [htaken]
    exact List.pairwise_cons.mpr ⟨hfresh.2, hI.pages⟩
  · obtain ⟨rfl, hnew⟩ | ⟨-, hc⟩ := block_update hc
    · obtain rfl := Option.some.inj hnew
      exact ⟨a.base, _, rfl, hlive⟩
    · obtain ⟨n, l, hq, hother, hapart⟩ := hother q c hc
      have hfits := hother.fits
      exact ⟨n, l, hq, hother.frame (htaken ▸ List.mem_cons_of_mem _ hother.taken)
        fun x h1 h2 => hmem x (by omega)⟩
  · obtain ⟨rfl, hnew⟩ | ⟨-, hc⟩ := block_update hc
    · obtain rfl := Option.some.inj hnew
      cases hv
    · obtain ⟨n, l, hq, hother, hapart⟩ := hother q c hc
      have hfits := hother.fits
      exact (hmem _ (by omega)).trans (hI.kept q c k v hc hk hv)
  · rw [htaken] at hx
    obtain rfl | hx := List.mem_cons.mp hx
    · exact ⟨_, update_self _ _ _⟩
    · obtain ⟨c, hc⟩ := hI.used x hx
      have hq : x.1 + 32 ≠ a.base + 32 := fun heq => by
        rw [heq, hnew] at hc
        cases hc
      exact ⟨c, (update_of_ne hq _ _).trans hc⟩

/-- **One block** changes: its header and its bytes, in its own pages. -/
theorem inv_block (hI : s.Inv) (hlive : Live s.heap n size l) {b' : Block} {mem : Memory}
    (hlive' : Live { s.heap with mem } n b'.size l)
    (hout : ∀ x, x < n ∨ n + 4096 * l ≤ x → mem x = s.heap.mem x)
    (hkept : ∀ k v, k < b'.size → b'.known k = some v → mem (n + 32 + k) = v) :
    Inv { heap := { s.heap with mem }, blocks := update s.blocks (n + 32) (some b') } := by
  have hother : ∀ q c, q ≠ n + 32 → s.blocks q = some c → ∃ m k, q = m + 32 ∧ Live s.heap m c.size k ∧
      (n + 4096 * l ≤ m ∨ m + 4096 * k ≤ n) := fun q c hne hc => by
    obtain ⟨m, k, hq, hc⟩ := hI.live q c hc
    exact ⟨m, k, hq, hc, hI.live_apart rfl hlive hq hc (Ne.symm hne)⟩
  refine ⟨hI.stretches, hI.pages, fun q c hc => ?_, fun q c k v hc hk hv => ?_, fun x hx => ?_, hI.clean⟩
  · obtain ⟨rfl, hnew⟩ | ⟨hne, hc⟩ := block_update hc
    · obtain rfl := Option.some.inj hnew
      exact ⟨n, l, rfl, hlive'⟩
    · obtain ⟨m, k, hq, hc, hapart⟩ := hother q c hne hc
      have hfits := hc.fits
      exact ⟨m, k, hq, hc.frame hc.taken fun x h1 h2 => hout x (by omega)⟩
  · obtain ⟨rfl, hnew⟩ | ⟨hne, hc⟩ := block_update hc
    · obtain rfl := Option.some.inj hnew
      exact hkept k v hk hv
    · have hbefore := hI.kept q c k v hc hk hv
      obtain ⟨m, j, rfl, hc, hapart⟩ := hother q c hne hc
      have hfits := hc.fits
      exact (hout _ (by omega)).trans hbefore
  · obtain ⟨c, hc⟩ := hI.used x hx
    by_cases hq : x.1 + 32 = n + 32
    · exact ⟨b', (congrArg _ hq).trans (update_self _ _ _)⟩
    · exact ⟨c, (update_of_ne hq _ _).trans hc⟩

/-- **Bytes of a block** are written. -/
theorem inv_fill (hI : s.Inv) (hb : s.blocks p = some b) {b' : Block} (hsize : b'.size = b.size) {mem : Memory}
    (hout : ∀ x, x < p ∨ p + b.size ≤ x → mem x = s.heap.mem x)
    (hkept : ∀ k v, k < b.size → b'.known k = some v → mem (p + k) = v) :
    Inv { heap := { s.heap with mem }, blocks := update s.blocks p (some b') } := by
  obtain ⟨n, l, rfl, hlive⟩ := hI.live p b hb
  have hfits := hlive.fits
  refine inv_block hI hlive ?_ (fun x hx => hout x (by omega)) (hsize ▸ hkept)
  rw [hsize]
  exact hlive.frame hlive.taken fun x h1 h2 => hout x (by omega)

/-- **A block stays** where it is, with another size that its pages are enough for. -/
theorem inv_resize (hI : s.Inv) (hb : s.blocks (n + 32) = some b) (hlive : Live s.heap n b.size l) {len : ℕ}
    (hlt : len + 32 < 2 ^ 64) (hfits : len + 32 ≤ 4096 * l) :
    Inv { heap := { s.heap with mem := nodeSet s.heap.mem n .allocatedSize (len + 32) }
          blocks := update s.blocks (n + 32) (some (b.resize len)) } := by
  have hle := hlive.fits
  refine inv_block hI hlive ⟨hlive.taken, ?_, nodeGet_nodeSet hlt, ?_, hfits⟩ ?_ fun k v hk hv => ?_
  · exact (nodeGet_nodeSet_of_ne (by decide)).trans hlive.magic
  · exact (nodeGet_nodeSet_of_ne (by decide)).trans hlive.pageCount
  · exact fun x hx => nodeSet_of_out (by omega)
  · unfold Block.resize at hv
    dsimp only at hv
    split at hv
    · rw [nodeSet_of_out (by omega)]
      exact hI.kept _ b k v hb (by omega) hv
    · cases hv

/-- **A block goes**, with its pages. -/
theorem inv_free (hI : s.Inv) (hb : s.blocks p = some b) :
    Inv { heap := s.heap.kfree p, blocks := update s.blocks p none } := by
  obtain ⟨n, l, rfl, hlive⟩ := hI.live p b hb
  have hfree : s.heap.kfree (n + 32) = { s.heap with taken := s.heap.taken.erase (n, l) } := by
    unfold Heap.kfree Heap.liballocFree
    rw [if_neg (Nat.succ_ne_zero _), Nat.add_sub_cancel]
    dsimp only
    rw [hlive.magic, hlive.pageCount, if_neg (not_not.mpr rfl), if_pos (List.contains_iff_mem.mpr hlive.taken)]
  rw [hfree]
  have hsub : s.heap.taken.erase (n, l) ⊆ s.heap.taken := List.erase_subset
  refine ⟨fun x hx => hI.stretches x (hsub hx), hI.pages.sublist List.erase_sublist, fun q c hc => ?_,
    fun q c k v hc hk hv => ?_, fun x hx => ?_, hI.clean⟩
  · obtain ⟨-, hnew⟩ | ⟨hne, hc⟩ := block_update hc
    · cases hnew
    · obtain ⟨m, k, rfl, hother⟩ := hI.live q c hc
      have htaken : (m, k) ∈ s.heap.taken.erase (n, l) :=
        (List.mem_erase_of_ne fun heq => hne (by rw [(Prod.mk.inj heq).1])).mpr hother.taken
      exact ⟨m, k, rfl, hother.frame htaken fun _ _ _ => rfl⟩
  · obtain ⟨-, hnew⟩ | ⟨-, hc⟩ := block_update hc
    · cases hnew
    · exact hI.kept q c k v hc hk hv
  · obtain ⟨c, hc⟩ := hI.used x (hsub hx)
    have hq : x.1 + 32 ≠ n + 32 := fun heq => by
      have hsame : x = (n, l) := hI.eq_of_base (hsub hx) hlive.taken (Nat.add_right_cancel heq)
      exact (hI.nodup.mem_erase_iff.mp hx).1 hsame
    exact ⟨c, (update_of_ne hq _ _).trans hc⟩

/-- **calloc** fills the new block with zeros. -/
theorem inv_calloc (hI : s.Inv) {a : PageAnswer} {count size : ℕ} (hlt : count * size < 2 ^ 64)
    (hgets : Gets a (count * size)) (hs : s.heap.kcalloc a count size = some (p, h')) :
    Inv { heap := h', blocks := update s.blocks p (some { size := count * size, known := fun _ => some 0 }) } := by
  unfold Heap.kcalloc at hs
  rw [Nat.mod_eq_of_lt hlt] at hs
  obtain ⟨⟨q, h1⟩, hmalloc, heq⟩ := Option.map_eq_some_iff.mp hs
  obtain ⟨rfl, rfl⟩ := Prod.mk.inj heq
  have hnew := (inv_malloc hI hgets hmalloc).2
  have hzeros : Inv
      { heap := { h1 with mem := memcpy h1.mem q (fun _ => 0) 0 (count * size) }
        blocks := update (update s.blocks q (some { size := count * size })) q
          (some { size := count * size, known := fun _ => some 0 }) } := by
    refine inv_fill hnew (update_self _ _ _) (show Block.size { size := count * size, known := fun _ => some 0 } =
      count * size from rfl) (fun x hx => ?_) fun k v hk hv => ?_
    · exact if_neg (show ¬ (q ≤ x ∧ x < q + count * size) by
        have : x < q ∨ q + count * size ≤ x := hx
        omega)
    · rw [← Option.some.inj hv]
      exact Lib.memcpy_of_mem hk
  rw [Function.update_idem] at hzeros
  exact hzeros

/-- **realloc** of a live block, in place or to new pages. -/
theorem inv_realloc (hI : s.Inv) (hb : s.blocks p = some b) {a : PageAnswer} {len q : ℕ}
    (hfits : len + 32 < 2 ^ 64 ∧ (nodeGet s.heap.mem (p - 32) .pageCount * 4096 ≤ len + 32 → Gets a len))
    (hs : s.heap.krealloc a p len = some (q, h')) :
    Inv { heap := h', blocks := update (update s.blocks p none) q (some (b.resize len)) } := by
  obtain ⟨n, l, rfl, hlive⟩ := hI.live p b hb
  have hle := hlive.fits
  have hstretch : n + 4096 * l ≤ 2 ^ 64 := (hI.stretches _ hlive.taken).2.2
  have hpos : 0 < n := (hI.stretches _ hlive.taken).1
  rw [Nat.add_sub_cancel, hlive.pageCount] at hfits
  unfold Heap.krealloc at hs
  rw [if_neg (Nat.succ_ne_zero _), Nat.add_sub_cancel, Nat.mod_eq_of_lt hfits.1] at hs
  dsimp only at hs
  rw [hlive.allocated, hlive.pageCount, Nat.mod_eq_of_lt (show l * 4096 < 2 ^ 64 by omega)] at hs
  split at hs
  · obtain ⟨rfl, rfl⟩ := Prod.mk.inj (Option.some.inj hs)
    rw [Function.update_idem]
    exact inv_resize hI hb hlive hfits.1 (by omega)
  split at hs
  · obtain ⟨rfl, rfl⟩ := Prod.mk.inj (Option.some.inj hs)
    rw [Function.update_idem]
    exact inv_resize hI hb hlive hfits.1 (by omega)
  · rename_i hsmall hlarge
    obtain ⟨⟨targ, h1⟩, hmalloc, heq⟩ := Option.map_eq_some_iff.mp hs
    obtain ⟨rfl, rfl⟩ := Prod.mk.inj heq
    obtain ⟨hnone, hnew⟩ := inv_malloc hI (hfits.2 (by omega)) hmalloc
    have hne : n + 32 ≠ targ := fun hne => by
      rw [← hne, hb] at hnone
      cases hnone
    have hold : update s.blocks targ (some { size := len }) (n + 32) = some b := (update_of_ne hne _ _).trans hb
    have hapart : n + 32 + b.size ≤ targ ∨ targ + len ≤ n + 32 :=
      hnew.promises.apart _ _ _ _ hold (update_self _ _ _) hne
    have hsize : (b.size + 32 + (2 ^ 64 - 32)) % 2 ^ 64 = b.size := by omega
    rw [hsize, Heap.copyBytes_eq (by omega)]
    have hcopied : Inv
        { heap := { h1 with mem := memcpy h1.mem targ h1.mem (n + 32) b.size }
          blocks := update (update s.blocks targ (some { size := len })) targ (some (b.resize len)) } := by
      refine inv_fill hnew (update_self _ _ _) (show (b.resize len).size = len from rfl) (fun x hx => ?_)
        fun k v hk hv => ?_
      · exact if_neg (show ¬ (targ ≤ x ∧ x < targ + b.size) by
          have : x < targ ∨ targ + len ≤ x := hx
          omega)
      · unfold Block.resize at hv
        dsimp only at hv
        split at hv
        · rw [Lib.memcpy_of_mem (by omega)]
          exact hnew.kept _ b k v hold (by omega) hv
        · cases hv
    rw [Function.update_idem] at hcopied
    have hfreed := inv_free hcopied ((update_of_ne hne _ _).trans hb)
    rw [Function.update_comm hne.symm] at hfreed
    exact hfreed

theorem inv_write (hI : s.Inv) (hb : s.blocks p = some b) {k : ℕ} {v : BitVec 8} (hk : k < b.size) :
    Inv { heap := { s.heap with mem := update s.heap.mem (p + k) v }
          blocks := update s.blocks p (some { b with known := update b.known k (some v) }) } := by
  refine inv_fill hI hb (show Block.size { b with known := update b.known k (some v) } = b.size from rfl)
    (fun x hx => ?_) fun j w hj hw => ?_
  · exact update_of_ne (show x ≠ p + k by omega) _ _
  by_cases hjk : j = k
  · subst hjk
    rw [update_self]
    exact Option.some.inj ((update_self j (some v) b.known).symm.trans hw)
  · rw [update_of_ne (show p + j ≠ p + k by omega)]
    exact hI.kept p b j w hb hj ((update_of_ne hjk (some v) b.known).symm.trans hw)

/-- **One call** that the heap handles. -/
theorem inv_heapStep (hI : s.Inv) {a : HeapCall} (hfits : s.CallFits a) (hs : s.step a = some s') : s'.Inv := by
  cases a with
  | malloc a len =>
    obtain ⟨⟨p, h'⟩, hmalloc, rfl⟩ := Option.map_eq_some_iff.mp hs
    exact (inv_malloc hI hfits hmalloc).2
  | calloc a n size =>
    obtain ⟨⟨p, h'⟩, hcalloc, rfl⟩ := Option.map_eq_some_iff.mp hs
    exact inv_calloc hI hfits.1 hfits.2 hcalloc
  | realloc a ptr len =>
    rw [step] at hs
    rw [CallFits] at hfits
    split at hs
    · rename_i hnull
      obtain ⟨⟨p, h'⟩, hrealloc, rfl⟩ := Option.map_eq_some_iff.mp hs
      rw [if_pos hnull] at hfits
      exact (inv_malloc hI hfits hrealloc).2
    · rename_i hnull
      obtain ⟨b, hb, hs⟩ := Option.bind_eq_some_iff.mp hs
      obtain ⟨⟨p, h'⟩, hrealloc, rfl⟩ := Option.map_eq_some_iff.mp hs
      rw [if_neg hnull] at hfits
      exact inv_realloc hI hb hfits hrealloc
  | free ptr =>
    rw [step] at hs
    split at hs
    · obtain rfl := Option.some.inj hs
      exact hI
    · obtain ⟨b, hb, rfl⟩ := Option.map_eq_some_iff.mp hs
      exact inv_free hI hb
  | write ptr k v =>
    rw [step] at hs
    obtain ⟨b, hb, hs⟩ := Option.bind_eq_some_iff.mp hs
    split at hs
    · rename_i hk
      obtain rfl := Option.some.inj hs
      exact inv_write hI hb hk
    · cases hs

/-- **The heap keeps its promises** in every state of every run whose calls it
handles. -/
theorem heap_promises (mem : Memory) (ops : List HeapCall) (s : HeapRun)
    (hmeets : Lib.Meets step CallFits ops { heap := { mem } }) (hrun : Lib.run step ops { heap := { mem } } = some s) :
    s.Promises :=
  (Lib.run_invariant_of_meets (P := Inv) (fun _ _ _ hI hfits hs => inv_heapStep hI hfits hs) ops hmeets inv_start
    hrun).promises

/-- A block is filled, shrinks, grows to new pages and goes. -/
theorem heap_promises_grown :
    ∃ s, Lib.run step [.malloc ⟨4096, fun _ => 5⟩ 3, .write 4128 1 7, .realloc ⟨0, fun _ => 0⟩ 4128 2,
      .realloc ⟨8192, fun _ => 9⟩ 4128 5000, .free 0] { heap := { mem := fun _ => 0 } } = some s ∧
      s.heap.mem 8225 = 7 ∧ s.heap.taken = [(8192, 2)] ∧ s.Promises := by
  refine ⟨?s, ?hrun, ?hmem, ?htaken, heap_promises (fun _ => 0) _ ?s ?hmeets ?hrun⟩
  case hrun => rfl
  case hmem => decide
  case htaken => decide
  case hmeets => decide

/-- Without pages the header is written through the null pointer. -/
theorem heap_null :
    ∃ s, Lib.run step [.malloc ⟨0, fun _ => 0⟩ 8] { heap := { mem := fun _ => 0 } } = some s ∧ ¬ s.Promises :=
  ⟨_, rfl, fun h => absurd h.clean (by decide)⟩

end HeapRun
end WingOS
