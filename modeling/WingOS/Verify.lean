/-
# The pages of a range of addresses

`PageTable::verify` (`arch/x86_64/paging.hpp`) looks at one page after the other
of a range. The start is rounded down first, and the end is that start and the
size, rounded up: the offset of the address in its page is lost. So a range that
begins inside a page and ends in the first bytes of another one is accepted
without a look at the last page.

The ranges for which it is exact, whatever the tables hold, are known
(`verify_exact_iff`): those with no byte behind the pages it looks at, and those
so long that it has walked all `2 ^ 36` pages. At the upper end of the words the
rounded end is 0, and it looks at nothing.

Key definitions: `Frames.verify`, `Accessible`, `VerifyExact`, `Covered`.
Key theorems: `verify_eq_ok`, `verify_exact_iff`.
-/
import WingOS.PageTable
import WingOS.Range

namespace WingOS

/-- The loop of `verify`, for `n` pages from `i` on. -/
def Frames.verifyPages (frames : Frames) (root : ℕ) : (n i : ℕ) → Except String Unit
  | 0, _ => .ok ()
  | n + 1, i =>
    match verifyAddr frames i 4 root with
    | .error e => .error e
    | .ok () => verifyPages frames root n (i + 4096)

/-- `PageTable<4>::verify`. -/
def Frames.verify (frames : Frames) (root vaddr size : ℕ) : Except String Unit :=
  let start := alignDown vaddr 4096
  let stop := alignUp ((start + size) % 2 ^ 64) 4096
  frames.verifyPages root ((stop - start + 4095) / 4096) start

/-- The page of the address is present, and of the user, and can be written, on
every level. -/
def Accessible (frames : Frames) (root b : ℕ) : Prop := effective frames b 4 root = some (true, true)

instance (frames : Frames) (root b : ℕ) : Decidable (Accessible frames root b) :=
  inferInstanceAs (Decidable (_ = _))

/-- `verify` accepts the range just if every byte of it is accessible. -/
def VerifyExact (frames : Frames) (root vaddr size : ℕ) : Prop :=
  frames.verify root vaddr size = .ok () ↔ ∀ b, vaddr ≤ b → b < vaddr + size → Accessible frames root b

/-- No byte of the range is behind the pages that make up its size, or they are
all pages there are. -/
def Covered (vaddr size : ℕ) : Prop :=
  size = 0 ∨ vaddr / 4096 * 4096 + size ≤ 2 ^ 64 - 4096 ∧
    (vaddr % 4096 + size ≤ 4096 * ((size + 4095) / 4096) ∨ 2 ^ 36 ≤ (size + 4095) / 4096)

instance (vaddr size : ℕ) : Decidable (Covered vaddr size) := inferInstanceAs (Decidable (_ ∨ _ ∧ _))

/-! ### What is looked at -/

section Verify

variable {frames : Frames} {root vaddr size : ℕ}

/-- `_verify` makes the tests of the processor. -/
theorem verifyAddr_iff (frames : Frames) (vaddr : ℕ) : ∀ level t,
    verifyAddr frames vaddr level t = .ok () ↔ effective frames vaddr level t = some (true, true)
  | 0, _ => ⟨fun _ => rfl, fun _ => rfl⟩
  | level + 1, t => by
    unfold verifyAddr effective
    dsimp only
    cases (frames t (tableIndex (level + 1) vaddr)).present with
    | false => simp
    | true =>
      cases (frames t (tableIndex (level + 1) vaddr)).user with
      | false => simp
      | true =>
        cases (frames t (tableIndex (level + 1) vaddr)).writeable with
        | false => simp
        | true =>
          have hid : (fun x : Bool × Bool => (x.1 && true, x.2 && true)) = id := by
            funext x
            rw [Bool.and_true, Bool.and_true]
            rfl
          rw [if_neg (by decide), if_neg (by decide), if_neg (by decide), if_pos rfl,
            verifyAddr_iff frames vaddr level]
          change _ ↔ Option.map (fun x : Bool × Bool => (x.1 && true, x.2 && true)) _ = _
          rw [hid, Option.map_id]
          rfl

/-- A walk sees 36 bits of the number of a page. -/
theorem effective_congr {a b : ℕ} (h : a / 4096 % 2 ^ 36 = b / 4096 % 2 ^ 36) : ∀ {level t : ℕ}, level ≤ 4 →
    effective frames a level t = effective frames b level t
  | 0, _, _ => rfl
  | level + 1, t, hl => by
    have hidx : tableIndex (level + 1) a = tableIndex (level + 1) b := by
      obtain rfl | rfl | rfl | rfl : level = 0 ∨ level = 1 ∨ level = 2 ∨ level = 3 := by omega
      all_goals
        simp only [tableIndex]
        omega
    unfold effective
    dsimp only
    rw [hidx, effective_congr h (by omega)]

theorem accessible_congr {a b : ℕ} (h : a / 4096 % 2 ^ 36 = b / 4096 % 2 ^ 36) :
    Accessible frames root a ↔ Accessible frames root b := by
  unfold Accessible
  rw [effective_congr h (Nat.le_refl 4)]

theorem verifyPages_eq_ok : ∀ {n i : ℕ}, frames.verifyPages root n i = .ok () ↔
    ∀ k < n, Accessible frames root (i + 4096 * k)
  | 0, _ => ⟨nofun, fun _ => rfl⟩
  | n + 1, i => by
    unfold Frames.verifyPages
    have hfirst := verifyAddr_iff frames i 4 root
    cases hv : verifyAddr frames i 4 root with
    | error e =>
      rw [hv] at hfirst
      refine ⟨nofun, fun h => ?_⟩
      exact absurd (hfirst.mpr (h 0 (Nat.succ_pos n))) nofun
    | ok u =>
      rw [hv] at hfirst
      dsimp only
      rw [verifyPages_eq_ok]
      constructor
      · intro h k hk
        cases k with
        | zero => exact hfirst.mp rfl
        | succ k =>
          have := h k (by omega)
          rwa [show i + 4096 + 4096 * k = i + 4096 * (k + 1) by omega] at this
      · intro h k hk
        have := h (k + 1) (by omega)
        rwa [show i + 4096 * (k + 1) = i + 4096 + 4096 * k by omega] at this

/-- The number of pages `verify` looks at. -/
def pagesSeen (vaddr size : ℕ) : ℕ :=
  if vaddr / 4096 * 4096 + size ≤ 2 ^ 64 - 4096 then (size + 4095) / 4096 else 0

theorem verify_eq_ok (h : vaddr + size < 2 ^ 64) : frames.verify root vaddr size = .ok () ↔
    ∀ k < pagesSeen vaddr size, Accessible frames root (vaddr / 4096 * 4096 + 4096 * k) := by
  have hdown : alignDown vaddr 4096 = vaddr / 4096 * 4096 := by
    rw [show (4096 : ℕ) = 2 ^ 12 from rfl, alignDown_eq (by decide) (by omega), Nat.mul_comm]
  have hcount : (alignUp ((vaddr / 4096 * 4096 + size) % 2 ^ 64) 4096 - vaddr / 4096 * 4096 + 4095) / 4096 =
      pagesSeen vaddr size := by
    rw [show (4096 : ℕ) = 2 ^ 12 from rfl, alignUp_eq (by decide)]
    unfold pagesSeen
    split
    · omega
    · omega
  unfold Frames.verify
  dsimp only
  rw [hdown, hcount, verifyPages_eq_ok]

/-! ### Which ranges are covered -/

/-- A page that is looked at has a byte of the range, if it is not too high. -/
theorem accessible_of_bytes (h : ∀ b, vaddr ≤ b → b < vaddr + size → Accessible frames root b) {k : ℕ}
    (hk : 4096 * k < size) : Accessible frames root (vaddr / 4096 * 4096 + 4096 * k) := by
  have hpage : (vaddr + 4096 * k) / 4096 % 2 ^ 36 = (vaddr / 4096 * 4096 + 4096 * k) / 4096 % 2 ^ 36 := by
    congr 1
    omega
  exact (accessible_congr hpage).mp (h (vaddr + 4096 * k) (Nat.le_add_right _ _) (by omega))

theorem verifyExact_of_covered (h : vaddr + size < 2 ^ 64) (hc : Covered vaddr size) :
    VerifyExact frames root vaddr size := by
  unfold VerifyExact
  rw [verify_eq_ok h]
  constructor
  · intro hseen b hb hlt
    rcases hc with rfl | ⟨hlow, hc⟩
    · omega
    · rw [pagesSeen, if_pos hlow] at hseen
      by_cases hk : b / 4096 - vaddr / 4096 < (size + 4095) / 4096
      · refine (accessible_congr ?_).mp (hseen _ hk)
        congr 1
        omega
      · -- the page behind those that were looked at, which is the first one again
        refine (accessible_congr ?_).mp (hseen (b / 4096 - vaddr / 4096 - 2 ^ 36) (by omega))
        omega
  · intro hbytes k hk
    refine accessible_of_bytes hbytes ?_
    unfold pagesSeen at hk
    split at hk
    · omega
    · omega

/-- Tables in which every page is accessible but the one with the number `q`.
The number of a table tells the path to it. -/
def framesWithout (q : ℕ) : Frames := fun t i =>
  { present := decide (512 * (t / 4096) + i ≠ 2 ^ 36 + q), writeable := true, user := true,
    address := 512 * (t / 4096) + i }

/-- The root of these tables. -/
def rootWithout : ℕ := 4096

theorem accessible_framesWithout {q b : ℕ} (hq : q < 2 ^ 36) :
    Accessible (framesWithout q) rootWithout b ↔ b / 4096 % 2 ^ 36 ≠ q := by
  have hcode : 512 * (512 * (512 * (512 * 1 + tableIndex 4 b) + tableIndex 3 b) + tableIndex 2 b) +
      tableIndex 1 b = 2 ^ 36 + b / 4096 % 2 ^ 36 := by
    simp only [tableIndex]
    omega
  have h4 := tableIndex_lt 4 b
  have h3 := tableIndex_lt 3 b
  have h2 := tableIndex_lt 2 b
  unfold Accessible
  simp only [effective, framesWithout, rootWithout, Nat.reduceAdd, Nat.mul_div_cancel _ (by decide : 0 < 4096),
    Nat.div_self (by decide : 0 < 4096), hcode, decide_eq_true_eq, Option.map_some, Bool.and_self]
  rw [if_pos (by omega), if_pos (by omega), if_pos (by omega)]
  split
  · rename_i hne
    exact ⟨fun _ hc => hne (by rw [hc]), fun _ => rfl⟩
  · rename_i heq
    exact ⟨fun hnone => absurd hnone (by simp), fun hc => absurd (by omega) hc⟩

/-- A byte that is on no page that is looked at. -/
theorem not_verifyExact (h : vaddr + size < 2 ^ 64) {b : ℕ} (hb : vaddr ≤ b) (hlt : b < vaddr + size)
    (hunseen : ∀ k < pagesSeen vaddr size,
      (vaddr / 4096 * 4096 + 4096 * k) / 4096 % 2 ^ 36 ≠ b / 4096 % 2 ^ 36) :
    ¬ VerifyExact (framesWithout (b / 4096 % 2 ^ 36)) rootWithout vaddr size := by
  have hq : b / 4096 % 2 ^ 36 < 2 ^ 36 := Nat.mod_lt _ (by decide)
  intro hexact
  have hok : (framesWithout (b / 4096 % 2 ^ 36)).verify rootWithout vaddr size = .ok () := by
    rw [verify_eq_ok h]
    exact fun k hk => (accessible_framesWithout hq).mpr (hunseen k hk)
  exact (accessible_framesWithout hq).mp (hexact.mp hok b hb hlt) rfl

/-- **`verify` is exact for a range**, whatever the tables are, just if the
pages it looks at cover the range. -/
theorem verify_exact_iff (vaddr size : ℕ) (h : vaddr + size < 2 ^ 64) :
    (∀ frames root, VerifyExact frames root vaddr size) ↔ Covered vaddr size := by
  refine ⟨fun hall => ?_, fun hc frames root => verifyExact_of_covered h hc⟩
  by_contra hc
  obtain ⟨hsize, hc⟩ := not_or.mp hc
  by_cases hlow : vaddr / 4096 * 4096 + size ≤ 2 ^ 64 - 4096
  · -- the first page that is not looked at has a byte of the range
    obtain ⟨hspill, hshort⟩ := not_or.mp fun hcov => hc ⟨hlow, hcov⟩
    refine not_verifyExact (b := vaddr / 4096 * 4096 + 4096 * ((size + 4095) / 4096)) h (by omega) (by omega)
      ?_ (hall _ _)
    intro k hk
    rw [pagesSeen, if_pos hlow] at hk
    omega
  · refine not_verifyExact (b := vaddr) h (Nat.le_refl _) (by omega) ?_ (hall _ _)
    intro k hk
    rw [pagesSeen, if_neg hlow] at hk
    omega

end Verify

/-- 200 bytes that start 96 bytes before the end of a page, where the next page
is not there. -/
theorem verify_exact_spill : ¬ VerifyExact (framesWithout 2) rootWithout 8096 200 := by
  intro hexact
  have hok : (framesWithout 2).verify rootWithout 8096 200 = .ok () := by decide +kernel
  have hnot : ¬ Accessible (framesWithout 2) rootWithout 8192 := by decide +kernel
  exact hnot (hexact.mp hok 8192 (by decide) (by decide))

theorem verify_exact_iff_page : 8192 + 200 < 2 ^ 64 ∧
    ((∀ frames root, VerifyExact frames root 8192 200) ↔ Covered 8192 200) :=
  ⟨by decide, verify_exact_iff 8192 200 (by decide)⟩

end WingOS
