/-
# Asset tables

The table of a `Space` (`kernel/generic/space.hpp`): handles to references of
assets. A handle is the value `alloc_uid` has after it was raised, so it is
never given out twice; the table carries this, and that each reference knows
the handle it is stored under and points to an asset. A null pointer is
`none`. `alloc_uid` does not overflow.

`asset_move` and `asset_copy` are one critical section each. A space is itself
an asset and has one lock for both: a copy of a space into itself waits for
the lock it has just taken, and does not return.

Key definitions: `AssetTable`, `AssetTable.insertNew`, `AssetTable.moveOut`,
`assetMove`, `assetCopy`.
-/
import Mathlib.Logic.Function.Basic
import Mathlib.Tactic.Common

namespace WingOS

abbrev AssetPtr := ℕ

/-- A `Space` is an asset. -/
abbrev SpacePtr := AssetPtr

structure AssetRef where
  asset : Option AssetPtr
  handle : ℕ
  deriving DecidableEq

structure AssetTable where
  assets : ℕ → Option AssetRef
  allocUid : ℕ
  handle_eq : ∀ {h r}, assets h = some r → r.handle = h
  asset_ne : ∀ {h r}, assets h = some r → r.asset ≠ none
  le_allocUid : ∀ {h r}, assets h = some r → h ≤ allocUid

namespace AssetTable

def empty (uid : ℕ) : AssetTable where
  assets := fun _ => none
  allocUid := uid
  handle_eq := nofun
  asset_ne := nofun
  le_allocUid := nofun

/-- The asset a handle stands for. -/
def assetAt (t : AssetTable) (h : ℕ) : Option AssetPtr := (t.assets h).bind AssetRef.asset

def byHandle (t : AssetTable) (h : ℕ) : Except String AssetRef :=
  match t.assets h with
  | some r => .ok r
  | none => .error "asset not found"

/-- Raises `alloc_uid` and inserts a reference under it. -/
def insertNew (t : AssetTable) (r : AssetRef) (hr : r.asset ≠ none) : AssetTable where
  assets := Function.update t.assets (t.allocUid + 1) (some { r with handle := t.allocUid + 1 })
  allocUid := t.allocUid + 1
  handle_eq := by
    intro h s hs
    rcases eq_or_ne h (t.allocUid + 1) with rfl | hne
    · rw [Function.update_self, Option.some_inj] at hs
      rw [← hs]
    · rw [Function.update_of_ne hne] at hs
      exact t.handle_eq hs
  asset_ne := by
    intro h s hs
    rcases eq_or_ne h (t.allocUid + 1) with rfl | hne
    · rw [Function.update_self, Option.some_inj] at hs
      rw [← hs]
      exact hr
    · rw [Function.update_of_ne hne] at hs
      exact t.asset_ne hs
  le_allocUid := by
    intro h s hs
    rcases eq_or_ne h (t.allocUid + 1) with rfl | hne
    · exact Nat.le_refl _
    · rw [Function.update_of_ne hne] at hs
      exact Nat.le_succ_of_le (t.le_allocUid hs)

/-- `assets.moveOut`. -/
def moveOut (t : AssetTable) (h : ℕ) : AssetTable where
  assets := Function.update t.assets h none
  allocUid := t.allocUid
  handle_eq := by
    intro k s hs
    rcases eq_or_ne k h with rfl | hne
    · simp at hs
    · rw [Function.update_of_ne hne] at hs
      exact t.handle_eq hs
  asset_ne := by
    intro k s hs
    rcases eq_or_ne k h with rfl | hne
    · simp at hs
    · rw [Function.update_of_ne hne] at hs
      exact t.asset_ne hs
  le_allocUid := by
    intro k s hs
    rcases eq_or_ne k h with rfl | hne
    · simp at hs
    · rw [Function.update_of_ne hne] at hs
      exact t.le_allocUid hs

variable {t : AssetTable} {h k : ℕ} {r : AssetRef}

theorem assetAt_eq_some {a : AssetPtr} :
    t.assetAt h = some a ↔ ∃ r, t.assets h = some r ∧ r.asset = some a := Option.bind_eq_some_iff

theorem assetAt_eq_none : t.assetAt h = none ↔ t.assets h = none := by
  unfold assetAt
  cases hr : t.assets h with
  | none => simp
  | some r => simpa using t.asset_ne hr

theorem byHandle_ok (hr : t.byHandle h = .ok r) : t.assets h = some r := by
  unfold byHandle at hr
  split at hr
  · rename_i hfind
    cases hr
    exact hfind
  · cases hr

theorem assetAt_of_lt (hh : t.allocUid < h) : t.assetAt h = none := by
  rw [assetAt_eq_none]
  by_contra hne
  obtain ⟨r, hr⟩ := Option.ne_none_iff_exists'.mp hne
  have := t.le_allocUid hr
  omega

@[simp] theorem allocUid_insertNew (hr : r.asset ≠ none) :
    (t.insertNew r hr).allocUid = t.allocUid + 1 := rfl

@[simp] theorem allocUid_moveOut : (t.moveOut h).allocUid = t.allocUid := rfl

theorem assetAt_insertNew (hr : r.asset ≠ none) :
    (t.insertNew r hr).assetAt k = if k = t.allocUid + 1 then r.asset else t.assetAt k := by
  unfold assetAt
  simp only [insertNew, Function.update_apply]
  split <;> rfl

theorem assetAt_moveOut : (t.moveOut h).assetAt k = if k = h then none else t.assetAt k := by
  unfold assetAt
  simp only [moveOut, Function.update_apply]
  split <;> rfl

end AssetTable

/-- The tables of the spaces. -/
abbrev Spaces := SpacePtr → AssetTable

/-- `Space::asset_move`. -/
def assetMove (source target : Option SpacePtr) (ref : AssetRef) (w : Spaces) :
    Except String (AssetRef × Spaces) :=
  match source, target with
  | some src, some dst =>
    if ref.asset = none then .error "asset is null"
    else
      match hv : (w src).assets ref.handle with
      | none => .error "asset not found in source space"
      | some v =>
        let w := Function.update w src ((w src).moveOut ref.handle)
        let t := (w dst).insertNew v (by exact (AssetTable.asset_ne _ hv))
        .ok ({ v with handle := t.allocUid }, Function.update w dst t)
  | _, _ => .error "from or to space is null"

/-- `Space::asset_copy`. A result of `none` is a call that does not return. -/
def assetCopy (target : Option SpacePtr) (ref : AssetRef) (w : Spaces) :
    Option (Except String (AssetRef × Spaces)) :=
  match target with
  | none => some (.error "from or to space is null")
  | some dst =>
    if ha : ref.asset = none then some (.error "asset is null")
    -- `asset.asset->lock` is held, and it is `to->lock`
    else if ref.asset = some dst then none
    else
      let t := (w dst).insertNew ref ha
      some (.ok ({ ref with handle := t.allocUid }, Function.update w dst t))

/-- What a successful move does: the entry `h` of the source is gone, the
target has a new one, and all others are as before. -/
theorem assetMove_ok {src : SpacePtr} (dst : SpacePtr) {w : Spaces} {h : ℕ} {r : AssetRef}
    (hr : (w src).assets h = some r) :
    ∃ w', assetMove (some src) (some dst) r w = .ok ({ r with handle := (w dst).allocUid + 1 }, w') ∧
      (w' dst).allocUid = (w dst).allocUid + 1 ∧
      ∀ p k, (w' p).assetAt k = if p = src ∧ k = h then none
        else if p = dst ∧ k = (w dst).allocUid + 1 then r.asset else (w p).assetAt k := by
  have hh := (w src).handle_eq hr
  have hne := (w src).asset_ne hr
  have hle := (w src).le_allocUid hr
  subst hh
  unfold assetMove
  simp only [if_neg hne]
  split
  · rename_i hv
    rw [hr] at hv
    cases hv
  · rename_i v hv
    have hvr : v = r := by
      rw [hr, Option.some_inj] at hv
      exact hv.symm
    subst hvr
    have huid : ((Function.update w src ((w src).moveOut v.handle)) dst).allocUid =
        (w dst).allocUid := by
      rw [Function.update_apply]
      split
      · rename_i hsd
        rw [hsd, AssetTable.allocUid_moveOut]
      · rfl
    simp only [AssetTable.allocUid_insertNew, huid]
    refine ⟨_, rfl, ?_, fun p k => ?_⟩
    · simp [huid]
    · rcases eq_or_ne p dst with rfl | hpd
      · rw [Function.update_self, AssetTable.assetAt_insertNew, huid]
        rcases eq_or_ne p src with rfl | hps
        · rw [Function.update_self, AssetTable.assetAt_moveOut]
          rcases eq_or_ne k v.handle with rfl | hk
          · rw [if_neg (by omega), if_pos rfl, if_pos ⟨rfl, rfl⟩]
          · simp [hk]
        · simp [hps]
      · rw [Function.update_of_ne hpd]
        rcases eq_or_ne p src with rfl | hps
        · simp [hpd, AssetTable.assetAt_moveOut]
        · simp [hps, hpd]

theorem allocUid_assetMove {source target : Option SpacePtr} {r r' : AssetRef} {w w' : Spaces}
    (h : assetMove source target r w = .ok (r', w')) (p : SpacePtr) : (w p).allocUid ≤ (w' p).allocUid := by
  unfold assetMove at h
  split at h
  · rename_i src dst
    split at h
    · cases h
    · split at h
      · cases h
      · cases h
        have hsrc : ∀ q, (Function.update w src ((w src).moveOut r.handle) q).allocUid = (w q).allocUid := by
          intro q
          rw [Function.update_apply]
          split
          · rename_i hq
            rw [hq, AssetTable.allocUid_moveOut]
          · rfl
        rw [Function.update_apply]
        split
        · rename_i hp
          rw [AssetTable.allocUid_insertNew, hsrc, hp]
          exact Nat.le_succ _
        · exact Nat.le_of_eq (hsrc p).symm
  · cases h

/-- What a successful copy does. -/
theorem assetCopy_ok {src dst : SpacePtr} {w : Spaces} {h : ℕ} {r : AssetRef}
    (hr : (w src).assets h = some r) (hd : r.asset ≠ some dst) :
    ∃ w', assetCopy (some dst) r w = some (.ok ({ r with handle := (w dst).allocUid + 1 }, w')) ∧
      (w' dst).allocUid = (w dst).allocUid + 1 ∧
      (w' dst).assetAt ((w dst).allocUid + 1) = r.asset ∧
      ∀ k, (w' src).assetAt k =
        if src = dst ∧ k = (w src).allocUid + 1 then r.asset else (w src).assetAt k := by
  have hne := (w src).asset_ne hr
  unfold assetCopy
  simp only [dif_neg hne, if_neg hd]
  refine ⟨_, rfl, ?_, ?_, fun k => ?_⟩
  · simp
  · simp [AssetTable.assetAt_insertNew]
  · rcases eq_or_ne src dst with rfl | hsd
    · simp [AssetTable.assetAt_insertNew]
    · simp [hsd]

end WingOS
