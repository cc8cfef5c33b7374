/-
# Everyone to the place they ask for, one swap after the other

Places `0, …, n - 1`, and `h x` is the place that whoever stands at `x` asks for.
The places are visited once, from above: who does not stand where they ask to
stand changes places with whoever is there (`settle`).

Nobody is visited at a place that a higher one has gone into, so a place is left by
who was there at first or not at all (`Moves`). What is left at a place `x` by a
move depends on where it went: it is who was there at first, or what an earlier move
has left there (`Brings`). These two say what stands where when the places from `k`
on have been visited (`SettledFrom`), and so who is home in the end
(`settleAll_iff`).

Key definitions: `settle`, `Moves`, `Brings`, `Home`, `SettledFrom`.
Key theorems: `SettledFrom.settle`, `settledFrom_zero`, `settleAll_iff`.
-/
import Mathlib.Logic.Equiv.Basic
import Mathlib.Data.List.Basic

namespace WingOS
namespace Lib

/-- Who stands at `x` changes places with who stands where they ask to be. -/
def settle (h : ℕ → Option ℕ) (x : ℕ) : ℕ → Option ℕ :=
  match h x with
  | none => h
  | some o => h ∘ Equiv.swap x o

/-- Who is at `x` leaves it: they ask for another place, and nobody from above has gone to `x`. -/
def Moves (h : ℕ → Option ℕ) (n x : ℕ) : Prop :=
  (∃ o, h x = some o ∧ o ≠ x) ∧ ∀ y, x < y → y < n → h y = some x → ¬Moves h n y
termination_by n - x

/-- Somebody goes to the place `c` from the places `k` and above. -/
def Entered (h : ℕ → Option ℕ) (n k c : ℕ) : Prop :=
  ∃ x, k ≤ x ∧ x < n ∧ h x = some c ∧ Moves h n x

/-- The one from `x` is the first to go to the place `o`. -/
structure ComesFirst (h : ℕ → Option ℕ) (n x o : ℕ) : Prop where
  moves : Moves h n x
  asks : h x = some o
  first : ¬Entered h n (x + 1) o

/-- The move away from `x` leaves somebody there who asks for `c`. -/
inductive Brings (h : ℕ → Option ℕ) (n c : ℕ) : ℕ → Prop
  | fromBelow {x o : ℕ} : ComesFirst h n x o → o < x → h o = some c → Brings h n c x
  | fromAbove {x o : ℕ} : ComesFirst h n x o → x < o → Brings h n c o → Brings h n c x

/-- Somebody who asks for `c` comes to stand there: one who was there, one who goes there, or one
whom the move away from `c` leaves there. -/
def Home (h : ℕ → Option ℕ) (n c : ℕ) : Prop :=
  h c = some c ∨ Entered h n 0 c ∨ Brings h n c c

/-- Who stands where in `g`, when the places from `k` on have been visited. -/
structure SettledFrom (h : ℕ → Option ℕ) (n k : ℕ) (g : ℕ → Option ℕ) : Prop where
  entered (c : ℕ) (h : Entered h n k c) : g c = some c
  untouched (y : ℕ) (hy : y < n) (hstay : y < k ∨ ¬Moves h n y) (hfree : ¬Entered h n k y) : g y = h y
  moved (y c : ℕ) (hk : k ≤ y) (hy : y < n) (hmoves : Moves h n y) (hfree : ¬Entered h n k y)
    (hc : ¬Entered h n k c) : g y = some c ↔ Brings h n c y

variable {h g : ℕ → Option ℕ} {n k x y o c : ℕ}

theorem settle_none (hx : h x = none) : settle h x = h := by rw [settle, hx]

theorem settle_some (hx : h x = some o) : settle h x = h ∘ Equiv.swap x o := by rw [settle, hx]

theorem settle_self (hx : h x = some x) : settle h x = h := by
  rw [settle_some hx, Equiv.swap_self]
  rfl

theorem Entered.mono (he : Entered h n k c) (hle : o ≤ k) : Entered h n o c := by
  obtain ⟨y, hky, hy, hyc, hmoves⟩ := he
  exact ⟨y, Nat.le_trans hle hky, hy, hyc, hmoves⟩

theorem Moves.asks (hm : Moves h n x) : ∃ o, h x = some o ∧ o ≠ x := by
  rw [Moves] at hm
  exact hm.1

theorem Moves.not_entered (hm : Moves h n x) : ¬Entered h n (x + 1) x := by
  rw [Moves] at hm
  rintro ⟨y, hxy, hy, hyx, hmoves⟩
  exact hm.2 y hxy hy hyx hmoves

/-- Who does not move is where they ask to be, asks for nothing, or is sent away by another. -/
theorem not_moves (hm : ¬Moves h n x) (hfree : ¬Entered h n (x + 1) x) : h x = none ∨ h x = some x := by
  by_contra hno
  rw [not_or] at hno
  apply hm
  rw [Moves]
  constructor
  · obtain ⟨o, ho⟩ := Option.ne_none_iff_exists'.mp hno.1
    exact ⟨o, ho, fun hc => hno.2 (hc ▸ ho)⟩
  · exact fun y hxy hy hyx hmoves => hfree ⟨y, hxy, hy, hyx, hmoves⟩

/-- The places that are gone to from `k` on, with the move away from `k`. -/
theorem entered_of_moves (hk : k < n) (hm : Moves h n k) (ho : h k = some o) :
    Entered h n k c ↔ c = o ∨ Entered h n (k + 1) c := by
  constructor
  · rintro ⟨y, hky, hy, hyc, hmoves⟩
    rcases Nat.eq_or_lt_of_le hky with rfl | hlt
    · exact .inl (Option.some.inj (hyc.symm.trans ho))
    · exact .inr ⟨y, hlt, hy, hyc, hmoves⟩
  · rintro (rfl | he)
    · exact ⟨k, Nat.le_refl k, hk, ho, hm⟩
    · exact he.mono (Nat.le_succ k)

theorem entered_of_not_moves (hm : ¬Moves h n k) : Entered h n k c ↔ Entered h n (k + 1) c := by
  constructor
  · rintro ⟨y, hky, hy, hyc, hmoves⟩
    rcases Nat.eq_or_lt_of_le hky with rfl | hlt
    · exact absurd hmoves hm
    · exact ⟨y, hlt, hy, hyc, hmoves⟩
  · exact fun he => he.mono (Nat.le_succ k)

/-- What a first arrival finds is what its move leaves behind. -/
theorem ComesFirst.brings_below (hf : ComesFirst h n x o) (hlt : o < x) : Brings h n c x ↔ h o = some c := by
  constructor
  · intro hb
    cases hb with
    | fromBelow hf' _ hc =>
      obtain rfl := Option.some.inj (hf.asks.symm.trans hf'.asks)
      exact hc
    | fromAbove hf' hgt _ =>
      obtain rfl := Option.some.inj (hf.asks.symm.trans hf'.asks)
      exact absurd hgt (Nat.lt_asymm hlt)
  · exact fun hc => .fromBelow hf hlt hc

theorem ComesFirst.brings_above (hf : ComesFirst h n x o) (hlt : x < o) : Brings h n c x ↔ Brings h n c o := by
  constructor
  · intro hb
    cases hb with
    | fromBelow hf' hgt _ =>
      obtain rfl := Option.some.inj (hf.asks.symm.trans hf'.asks)
      exact absurd hgt (Nat.lt_asymm hlt)
    | fromAbove hf' _ hc =>
      obtain rfl := Option.some.inj (hf.asks.symm.trans hf'.asks)
      exact hc
  · exact fun hb => .fromAbove hf hlt hb

theorem Brings.comesFirst (hb : Brings h n c x) : ∃ o, ComesFirst h n x o := by
  cases hb with
  | fromBelow hf _ _ => exact ⟨_, hf⟩
  | fromAbove hf _ _ => exact ⟨_, hf⟩

theorem Brings.moves (hb : Brings h n c x) : Moves h n x := by
  obtain ⟨_, hf⟩ := hb.comesFirst
  exact hf.moves

/-! ### One place after the other -/

theorem settledFrom_start : SettledFrom h n n h where
  entered c he := by
    obtain ⟨y, hny, hy, _⟩ := he
    omega
  untouched _ _ _ _ := rfl
  moved y c hk hy := absurd hk (Nat.not_le_of_lt hy)

/-- The place that the one from `k` goes to, as it is found. -/
theorem SettledFrom.found (hg : SettledFrom h n (k + 1) g) (hm : Moves h n k) (ho : h k = some o) (hon : o < n)
    (hco : c ≠ o) (hc : ¬Entered h n (k + 1) c) : g o = some c ↔ Brings h n c k := by
  have hok : o ≠ k := by
    obtain ⟨o', ho', hne⟩ := hm.asks
    exact Option.some.inj (ho'.symm.trans ho) ▸ hne
  by_cases he : Entered h n (k + 1) o
  · -- one who asked for it is already there
    constructor
    · intro hgo
      rw [hg.entered o he] at hgo
      exact absurd (Option.some.inj hgo).symm hco
    · intro hb
      obtain ⟨o', hf⟩ := hb.comesFirst
      obtain rfl := Option.some.inj (ho.symm.trans hf.asks)
      exact absurd he hf.first
  · have hf : ComesFirst h n k o := ⟨hm, ho, he⟩
    rcases Nat.lt_or_gt_of_ne hok with hlt | hgt
    · rw [hf.brings_below hlt, hg.untouched o hon (.inl (Nat.lt_succ_of_lt hlt)) he]
    · rw [hf.brings_above hgt]
      by_cases hmo : Moves h n o
      · exact hg.moved o c hgt hon hmo he hc
      · rw [hg.untouched o hon (.inr hmo) he]
        have hstill : h o = none ∨ h o = some o := not_moves hmo fun hc => he (hc.mono (by omega))
        constructor
        · intro hoc
          rcases hstill with hnone | hself
          · rw [hnone] at hoc
            cases hoc
          · exact absurd (Option.some.inj (hoc.symm.trans hself)) hco
        · exact fun hb => absurd hb.moves hmo

/-- **One place is visited.** -/
theorem SettledFrom.settle (hg : SettledFrom h n (k + 1) g) (hk : k < n) (hlt : ∀ o, h k = some o → o < n) :
    SettledFrom h n k (settle g k) := by
  by_cases hm : Moves h n k
  · obtain ⟨o, ho, hok⟩ := hm.asks
    have hgk : g k = some o := (hg.untouched k hk (.inl (Nat.lt_succ_self k)) hm.not_entered).trans ho
    rw [settle_some hgk]
    constructor
    · intro c hc
      rw [entered_of_moves hk hm ho] at hc
      by_cases hco : c = o
      · subst hco
        rw [Function.comp_apply, Equiv.swap_apply_right, hgk]
      · have he := hc.resolve_left hco
        have hck : c ≠ k := fun heq => hm.not_entered (heq ▸ he)
        rw [Function.comp_apply, Equiv.swap_apply_of_ne_of_ne hck hco]
        exact hg.entered c he
    · intro y hy hstay hfree
      rw [entered_of_moves hk hm ho, not_or] at hfree
      have hyk : y ≠ k := by
        rintro rfl
        exact hstay.elim (Nat.lt_irrefl y) (· hm)
      rw [Function.comp_apply, Equiv.swap_apply_of_ne_of_ne hyk hfree.1]
      exact hg.untouched y hy (hstay.imp_left Nat.lt_succ_of_lt) hfree.2
    · intro y c hky hy hmoves hfree hc
      rw [entered_of_moves hk hm ho, not_or] at hfree hc
      by_cases hyk : y = k
      · subst hyk
        rw [Function.comp_apply, Equiv.swap_apply_left]
        exact hg.found hm ho (hlt o ho) hc.1 hc.2
      · rw [Function.comp_apply, Equiv.swap_apply_of_ne_of_ne hyk hfree.1]
        exact hg.moved y c (by omega) hy hmoves hfree.2 hc.2
  · have hsame : Lib.settle g k = g := by
      by_cases he : Entered h n (k + 1) k
      · exact settle_self (hg.entered k he)
      · have hgk := hg.untouched k hk (.inl (Nat.lt_succ_self k)) he
        rcases not_moves hm he with hnone | hself
        · exact settle_none (hgk.trans hnone)
        · exact settle_self (hgk.trans hself)
    rw [hsame]
    constructor
    · intro c hc
      rw [entered_of_not_moves hm] at hc
      exact hg.entered c hc
    · intro y hy hstay hfree
      rw [entered_of_not_moves hm] at hfree
      exact hg.untouched y hy (hstay.imp_left Nat.lt_succ_of_lt) hfree
    · intro y c hky hy hmoves hfree hc
      rw [entered_of_not_moves hm] at hfree hc
      have hyk : y ≠ k := fun heq => hm (heq ▸ hmoves)
      exact hg.moved y c (by omega) hy hmoves hfree hc

/-- All the places, from above. -/
def settleAll (h : ℕ → Option ℕ) (n : ℕ) : ℕ → Option ℕ := (List.range n).reverse.foldl settle h

theorem settledFrom_foldr (hlt : ∀ x < n, ∀ o, h x = some o → o < n) {m : ℕ} : ∀ {k : ℕ}, k + m = n →
    SettledFrom h n k ((List.range' k m).foldr (fun x g => settle g x) h) := by
  induction m with
  | zero =>
    intro k hk
    obtain rfl : k = n := hk
    exact settledFrom_start
  | succ m ih =>
    intro k hk
    have hkn : k < n := by omega
    rw [List.range'_succ, List.foldr_cons]
    exact (ih (by omega)).settle hkn (hlt k hkn)

theorem settledFrom_zero (hlt : ∀ x < n, ∀ o, h x = some o → o < n) : SettledFrom h n 0 (settleAll h n) := by
  rw [settleAll, List.foldl_reverse, List.range_eq_range']
  exact settledFrom_foldr hlt (Nat.zero_add n)

/-- Who is home in the end. -/
theorem SettledFrom.home_iff (hg : SettledFrom h n 0 g) (hc : c < n) : g c = some c ↔ Home h n c := by
  by_cases he : Entered h n 0 c
  · exact ⟨fun _ => .inr (.inl he), fun _ => hg.entered c he⟩
  · by_cases hm : Moves h n c
    · rw [hg.moved c c (Nat.zero_le c) hc hm he he]
      constructor
      · exact fun hb => .inr (.inr hb)
      · rintro (hself | he' | hb)
        · obtain ⟨o, ho, hne⟩ := hm.asks
          exact absurd (Option.some.inj (ho.symm.trans hself)) hne
        · exact absurd he' he
        · exact hb
    · rw [hg.untouched c hc (.inr hm) he]
      constructor
      · exact .inl
      · rintro (hself | he' | hb)
        · exact hself
        · exact absurd he' he
        · exact absurd hb.moves hm

/-! ### Nobody is lost -/

/-- The same places are asked for. -/
theorem asked_settle (hk : k < n) (hlt : ∀ o, g k = some o → o < n) :
    (∃ x < n, settle g k x = some c) ↔ ∃ x < n, g x = some c := by
  cases ho : g k with
  | none => rw [settle_none ho]
  | some o =>
    have hon := hlt o ho
    have hswap : ∀ x < n, Equiv.swap k o x < n := by
      intro x hx
      rw [Equiv.swap_apply_def]
      split
      · exact hon
      · split
        · exact hk
        · exact hx
    rw [settle_some ho]
    constructor
    · rintro ⟨x, hx, hxc⟩
      exact ⟨Equiv.swap k o x, hswap x hx, hxc⟩
    · rintro ⟨x, hx, hxc⟩
      refine ⟨Equiv.swap k o x, hswap x hx, ?_⟩
      rwa [Function.comp_apply, Equiv.swap_apply_self]

theorem asked_foldl {l : List ℕ} : ∀ {g : ℕ → Option ℕ}, (∀ x ∈ l, x < n) →
    (∀ x < n, ∀ o, g x = some o → o < n) →
    ((∃ x < n, l.foldl settle g x = some c) ↔ ∃ x < n, g x = some c) := by
  induction l with
  | nil => exact fun _ _ => Iff.rfl
  | cons k l ih =>
    intro g hl hlt
    have hk : k < n := hl k List.mem_cons_self
    rw [List.foldl_cons, ih (fun x hx => hl x (List.mem_cons_of_mem k hx)), asked_settle hk (hlt k hk)]
    intro x hx o ho
    obtain ⟨y, hy, hyo⟩ := (asked_settle hk (hlt k hk)).mp ⟨x, hx, ho⟩
    exact hlt y hy o hyo

/-- **Where everybody is home**: nobody asks for a place that is not taken by one who asks for it, if
each place that is asked for has one who gets there. -/
theorem settleAll_iff (hlt : ∀ x < n, ∀ o, h x = some o → o < n) :
    (∀ x < n, ∀ c, settleAll h n x = some c → settleAll h n c = some c) ↔
      ∀ c, (∃ x < n, h x = some c) → Home h n c := by
  have hasked : ∀ c, (∃ x < n, settleAll h n x = some c) ↔ ∃ x < n, h x = some c := fun c =>
    asked_foldl (fun x hx => List.mem_range.mp (List.mem_reverse.mp hx)) hlt
  have hhome : ∀ c, (∃ x < n, h x = some c) → (settleAll h n c = some c ↔ Home h n c) := by
    rintro c ⟨x, hx, hxc⟩
    exact (settledFrom_zero hlt).home_iff (hlt x hx c hxc)
  constructor
  · intro hall c hc
    obtain ⟨x, hx, hxc⟩ := (hasked c).mpr hc
    exact (hhome c hc).mp (hall x hx c hxc)
  · intro hall x hx c hxc
    have hc := (hasked c).mp ⟨x, hx, hxc⟩
    exact (hhome c hc).mpr (hall c hc)

end Lib
end WingOS
