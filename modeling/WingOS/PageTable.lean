/-
# The page table as a tree of frames

The rest of `PageTable` (`arch/x86_64/paging.hpp`): `unmap`, which gives a
table back when its last entry is gone, and the two walks `_verify` and
`physical_addr`. `effective` is what the processor allows at an address: the
rights that every entry of the walk has.

The tables are the nodes of a tree whose children are the present entries. An
address is a path of three indices to a table of the last level and an index
in it (`slots`, `slot`); two addresses with the same path and index are on the
same page (`same_page_iff`).

Key definitions: `Vmm.unmapPage`, `verifyAddr`, `physicalAddr`, `effective`,
`Frames.child`, `tableAt`, `leafAt`.
Key theorems: `leafSlot_eq`, `same_page_iff`.
-/
import WingOS.Paging
import WingOS.Lib.Radix

namespace WingOS

open Lib (nodeAt)

/-! ### The walks -/

namespace Vmm

/-- The loop of `unmap` over the entries of a table. -/
def anyPresent (v : Vmm) (t : ℕ) : Bool := (List.range 512).any fun i => (v.frames t i).present

/-- `PageTable<level>::unmap`; level 0 does not occur. The entry is read again
after the table below it was changed. -/
def unmapPage (vaddr : ℕ) (user : Bool) : (level t : ℕ) → Vmm → Option (Except String Unit × Vmm)
  | 0, _, v => some (.ok (), v)
  | 1, t, v => some (.ok (), v.setEntry t (tableIndex 1 vaddr) {})
  | level + 2, t, v =>
    let i := tableIndex (level + 2) vaddr
    if (v.frames t i).present = false then some (.error "Page not present", v)
    else if user = true ∧ (v.frames t i).user = false then some (.error "Page not user accessible", v)
    else
      match unmapPage vaddr user (level + 1) ((v.frames t i).address * 4096) v with
      | none => none
      | some (.error e, v) => some (.error e, v)
      | some (.ok (), v) =>
        if v.anyPresent ((v.frames t i).address * 4096) then some (.ok (), v)
        else
          (v.pmm.release ((v.frames t i).address * 4096) 1).map fun (_, pmm) =>
            (.ok (), { v with pmm }.setEntry t i {})

end Vmm

/-- `_verify`, from a table of the level `level`; level 0 is below the last. -/
def verifyAddr (frames : Frames) (vaddr : ℕ) : (level t : ℕ) → Except String Unit
  | 0, _ => .ok ()
  | level + 1, t =>
    let page := frames t (tableIndex (level + 1) vaddr)
    if page.present = false then .error "Page not present"
    else if page.user = false then .error "Page not user accessible"
    else if page.writeable = false then .error "Page is not writable"
    else verifyAddr frames vaddr level (page.address * 4096)

/-- `physical_addr`; below the last level, `t` is the page itself. -/
def physicalAddr (frames : Frames) (vaddr : ℕ) : (level t : ℕ) → Except String ℕ
  | 0, t => .ok (t + vaddr % 4096)
  | level + 1, t =>
    let page := frames t (tableIndex (level + 1) vaddr)
    if page.present = false then .error "Page not present"
    else if page.user = false then .error "Page not user accessible"
    else if page.writeable = false then .error "Page is not writable"
    else physicalAddr frames vaddr level (page.address * 4096)

/-- The user and the write right of every entry of a walk together. -/
def effective (frames : Frames) (vaddr : ℕ) : (level t : ℕ) → Option (Bool × Bool)
  | 0, _ => some (true, true)
  | level + 1, t =>
    let page := frames t (tableIndex (level + 1) vaddr)
    if page.present then
      (effective frames vaddr level (page.address * 4096)).map fun (user, writeable) =>
        (user && page.user, writeable && page.writeable)
    else none

/-! ### Paths -/

theorem tableIndex_lt (level vaddr : ℕ) : tableIndex level vaddr < 512 := Nat.mod_lt _ (by decide)

/-- The index of an address in a table. -/
def slot (level vaddr : ℕ) : Fin 512 := ⟨tableIndex level vaddr, tableIndex_lt level vaddr⟩

/-- The path of an address to the table of the last level, from one of the
level `level`. -/
def slots (vaddr : ℕ) : (level : ℕ) → List (Fin 512)
  | 0 => []
  | 1 => []
  | level + 2 => slot (level + 2) vaddr :: slots vaddr (level + 1)

theorem slots_length (vaddr : ℕ) : ∀ level, (slots vaddr (level + 1)).length = level
  | 0 => rfl
  | level + 1 => by
    rw [slots, List.length_cons, slots_length vaddr level]

theorem path_cons (p : List (Fin 512)) (vaddr level : ℕ) :
    p ++ slots vaddr (level + 2) = (p ++ [slot (level + 2) vaddr]) ++ slots vaddr (level + 1) := by
  rw [slots, List.append_assoc]
  rfl

/-- Two addresses of 48 bits are on the same page if they have the same path. -/
theorem same_page_iff {a b : ℕ} (ha : a < 2 ^ 48) (hb : b < 2 ^ 48) :
    slots a 4 = slots b 4 ∧ slot 1 a = slot 1 b ↔ a / 4096 = b / 4096 := by
  simp only [slots, slot, tableIndex, List.cons.injEq, Fin.mk.injEq, and_true]
  omega

/-- The table that a present entry leads to. -/
def Frames.child (frames : Frames) (t : ℕ) (i : Fin 512) : Option ℕ :=
  if (frames t i).present then some ((frames t i).address * 4096) else none

/-- The table at the end of a path. -/
def tableAt (frames : Frames) (root : ℕ) (p : List (Fin 512)) : Option ℕ :=
  nodeAt (Frames.child frames) root p

/-- The entry of the last level at a path and an index, if it is present. -/
def leafAt (frames : Frames) (root : ℕ) (p : List (Fin 512)) (i : Fin 512) : Option Page :=
  (tableAt frames root p).bind fun t => if (frames t i).present then some (frames t i) else none

section Walks

variable {frames : Frames} {t c : ℕ} {i : Fin 512}

theorem child_eq_some : Frames.child frames t i = some c ↔
    (frames t i).present = true ∧ (frames t i).address * 4096 = c := by
  unfold Frames.child
  split
  · rename_i h
    rw [Option.some_inj]
    exact ⟨fun hc => ⟨h, hc⟩, And.right⟩
  · rename_i h
    exact ⟨nofun, fun hc => absurd hc.1 h⟩

theorem child_eq_none : Frames.child frames t i = none ↔ (frames t i).present = false := by
  unfold Frames.child
  split
  · rename_i h
    rw [h]
    exact ⟨nofun, nofun⟩
  · rename_i h
    exact ⟨fun _ => Bool.eq_false_iff.mpr h, fun _ => rfl⟩

/-- A walk follows the path of its address. -/
theorem leafSlot_eq (frames : Frames) (vaddr : ℕ) : ∀ level t,
    leafSlot frames vaddr (level + 1) t =
      (tableAt frames t (slots vaddr (level + 1))).map fun x => (x, tableIndex 1 vaddr)
  | 0, t => rfl
  | level + 1, t => by
    unfold leafSlot slots tableAt
    rw [Lib.nodeAt_cons]
    unfold Frames.child
    dsimp only
    rw [show ((slot (level + 2) vaddr : Fin 512) : ℕ) = tableIndex (level + 2) vaddr from rfl]
    split
    · exact leafSlot_eq frames vaddr level _
    · rfl

end Walks
end WingOS
