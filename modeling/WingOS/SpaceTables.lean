/-
# The tables of all spaces

The tables as the code keeps them: a hash map from handles to references and
the counter `alloc_uid` (`kernel/generic/space.hpp`), with the calls that change
them (`space.cpp`). `World.issued` records every handle a space has given out.

A handle is the counter after it was raised and the counter never goes back, so
no handle is given out twice, `insert` never gets a key that is there, and each
map is a table in the sense of `AssetTable` (`toAssetTable`). The counters do
not overflow. A space that is dropped keeps its table here: no call gets to it.

Key definitions: `SpaceTable`, `World`, `TableCall`, `World.step`, `Consistent`.
Key theorems: `inv_step`, `toAssetTable_issue`, `toAssetTable_moveOut`,
`tables_consistent`.
-/
import WingOS.AssetTable
import WingOS.UMap
import WingOS.Lib.Run

namespace WingOS

open Function (update)

/-- The table of a `Space`; `AssetHandle::hash` is the number itself. -/
structure SpaceTable where
  assets : UMap ℕ AssetRef := {}
  allocUid : ℕ := 0

namespace SpaceTable

def find (t : SpaceTable) (h : ℕ) : Option AssetRef := t.assets.get id h

/-- Raises `alloc_uid` and inserts a reference to `asset` under it. -/
def issue (t : SpaceTable) (asset : Option AssetPtr) : SpaceTable where
  assets := t.assets.insert id (t.allocUid + 1) ⟨asset, t.allocUid + 1⟩
  allocUid := t.allocUid + 1

/-- The table of a new space: the space itself, under `selfSpace`. -/
def own (space : SpacePtr) (uid : ℕ) : SpaceTable where
  assets := UMap.insert id {} 0 ⟨some space, 0⟩
  allocUid := uid

structure Ok (t : SpaceTable) : Prop where
  map : UMap.Ok id t.assets
  entry : ∀ {h r}, t.find h = some r → r.handle = h ∧ r.asset ≠ none ∧ h ≤ t.allocUid

variable {t : SpaceTable} {h k : ℕ} {asset : Option AssetPtr} {r : AssetRef}

theorem Ok.find_of_lt (ht : t.Ok) (hh : t.allocUid < h) : t.find h = none := by
  by_contra hne
  obtain ⟨r, hr⟩ := Option.ne_none_iff_exists'.mp hne
  have := (ht.entry hr).2.2
  omega

theorem Ok.find_issue (ht : t.Ok) : (t.issue asset).find h =
    if h = t.allocUid + 1 then some ⟨asset, t.allocUid + 1⟩ else t.find h :=
  UMap.get_insert ht.map (ht.find_of_lt (Nat.lt_succ_self _)) _

theorem Ok.issue (ht : t.Ok) (ha : asset ≠ none) : (t.issue asset).Ok := by
  refine ⟨UMap.ok_insert ht.map (ht.find_of_lt (Nat.lt_succ_self _)) _, fun {h r} hr => ?_⟩
  rw [ht.find_issue] at hr
  split at hr
  · rename_i hh
    rw [← Option.some.inj hr]
    exact ⟨hh.symm, ha, Nat.le_of_eq hh⟩
  · obtain ⟨h1, h2, h3⟩ := ht.entry hr
    exact ⟨h1, h2, Nat.le_succ_of_le h3⟩

theorem find_own (space : SpacePtr) (uid : ℕ) :
    (own space uid).find h = if h = 0 then some ⟨some space, 0⟩ else none :=
  UMap.get_insert (UMap.ok_empty id) rfl _

theorem ok_own (space : SpacePtr) (uid : ℕ) : (own space uid).Ok := by
  refine ⟨UMap.ok_insert (UMap.ok_empty id) rfl _, fun {h r} hr => ?_⟩
  rw [find_own] at hr
  split at hr
  · rename_i hh
    rw [← Option.some.inj hr, hh]
    exact ⟨rfl, Option.some_ne_none _, Nat.zero_le _⟩
  · cases hr

/-- An entry is taken out. -/
theorem Ok.moveOut (ht : t.Ok) (hr : t.find h = some r) :
    ∃ assets, t.assets.moveOut id h = some (r, assets) ∧ SpaceTable.Ok { t with assets } ∧
      ∀ k, SpaceTable.find { t with assets } k = if k = h then none else t.find k := by
  obtain ⟨assets, hmove, hok, hget⟩ := UMap.get_moveOut ht.map hr
  refine ⟨assets, hmove, ⟨hok, fun {k s} hs => ?_⟩, hget⟩
  have hs' : (if k = h then none else t.find k) = some s := (hget k).symm.trans hs
  split at hs'
  · cases hs'
  · exact ht.entry hs'

/-! ### The table as a function -/

/-- The map as a table with its invariant. -/
def toAssetTable (t : SpaceTable) (ht : t.Ok) : AssetTable where
  assets := t.find
  allocUid := t.allocUid
  handle_eq := fun hr => (ht.entry hr).1
  asset_ne := fun hr => (ht.entry hr).2.1
  le_allocUid := fun hr => (ht.entry hr).2.2

theorem toAssetTable_issue (ht : t.Ok) (ha : r.asset ≠ none) :
    ((t.issue r.asset).toAssetTable (ht.issue ha)).assets = ((t.toAssetTable ht).insertNew r ha).assets := by
  funext h
  change (t.issue r.asset).find h = update t.find _ _ h
  rw [ht.find_issue, Function.update_apply]
  rfl

theorem toAssetTable_moveOut (ht : t.Ok) {assets : UMap ℕ AssetRef}
    (hmove : t.assets.moveOut id h = some (r, assets)) (hok : SpaceTable.Ok { t with assets }) :
    (SpaceTable.toAssetTable { t with assets } hok).assets = ((t.toAssetTable ht).moveOut h).assets := by
  obtain ⟨r', hr'⟩ := UMap.moveOut_isSome hmove
  obtain ⟨assets', hmove', -, hfind⟩ := ht.moveOut hr'
  obtain ⟨-, rfl⟩ := Prod.mk.inj (Option.some.inj (hmove.symm.trans hmove'))
  funext k
  change SpaceTable.find { t with assets } k = update t.find h none k
  rw [hfind, Function.update_apply]

end SpaceTable

/-! ### The calls -/

/-- The tables, the pointer the next asset gets and `_space_id`; `issued` has the
handles that were given out. -/
structure World where
  tables : SpacePtr → Option SpaceTable
  nextPtr : AssetPtr
  spaceId : ℕ
  issued : List (SpacePtr × ℕ)

namespace World

def find (w : World) (space : SpacePtr) (h : ℕ) : Option AssetRef :=
  (w.tables space).bind fun t => t.find h

def setTable (w : World) (space : SpacePtr) (t : SpaceTable) : World :=
  { w with tables := update w.tables space (some t) }

/-- A new handle of the table `t` of `space`. -/
def issue (w : World) (space : SpacePtr) (t : SpaceTable) (asset : Option AssetPtr) : World :=
  { w.setTable space (t.issue asset) with issued := (space, t.allocUid + 1) :: w.issued }

/-- `Space::create_root`. -/
def createRoot : World where
  tables := update (fun _ => none) 0 (some (SpaceTable.own 0 16))
  nextPtr := 1
  spaceId := 1
  issued := [(0, 0)]

/-- `add_asset`; a result of `none` stands for a space that does not exist. -/
def addAsset (w : World) (space : SpacePtr) (asset : AssetPtr) : Option (AssetRef × World) :=
  (w.tables space).map fun t => (⟨some asset, t.allocUid + 1⟩, w.issue space t (some asset))

/-- `allocate_asset`. -/
def allocateAsset (w : World) (space : SpacePtr) : Option (AssetRef × World) :=
  { w with nextPtr := w.nextPtr + 1 }.addAsset space w.nextPtr

/-- `_asset_remove`; a result of `none` is `unreachable$`. -/
def assetRemove (w : World) (space : SpacePtr) (h : ℕ) : Option (AssetRef × World) :=
  (w.tables space).bind fun t =>
    if t.assets.has id h = false then none
    else (t.assets.moveOut id h).map fun (v, assets) => (v, w.setTable space { t with assets })

/-- `create_space`; `vspace` is what `VmmSpace::create` returns. -/
def createSpace (w : World) (space : SpacePtr) (vspace : Except String Unit) :
    Option (Except String AssetRef × World) :=
  let new := w.nextPtr
  (w.allocateAsset space).bind fun (ptr, w) =>
    match vspace with
    | .error e => (w.assetRemove space ptr.handle).map fun (_, w) => (.error e, w)
    | .ok () =>
      let w := { w with spaceId := w.spaceId + 1 }.setTable new
        (SpaceTable.own new (16 + 10000 * w.spaceId))
      some (.ok ptr, { w with issued := (new, 0) :: w.issued })

/-- `asset_move`. -/
def assetMove (w : World) (source target : Option SpacePtr) (ref : AssetRef) :
    Option (Except String AssetRef × World) :=
  match source, target with
  | some src, some dst =>
    if ref.asset = none then some (.error "asset is null", w)
    else
      (w.tables src).bind fun t =>
        if t.assets.has id ref.handle = false then some (.error "asset not found in source space", w)
        else
          (t.assets.moveOut id ref.handle).bind fun (v, assets) =>
            let w := w.setTable src { t with assets }
            (w.tables dst).map fun t =>
              (.ok { v with handle := t.allocUid + 1 }, w.issue dst t v.asset)
  | _, _ => some (.error "from or to space is null", w)

/-- `asset_copy`. A copy of a space into itself does not return. -/
def assetCopy (w : World) (target : Option SpacePtr) (ref : AssetRef) :
    Option (Except String AssetRef × World) :=
  match target with
  | none => some (.error "from or to space is null", w)
  | some dst =>
    if ref.asset = none then some (.error "asset is null", w)
    else if ref.asset = some dst then none
    else
      (w.tables dst).map fun t => (.ok ⟨ref.asset, t.allocUid + 1⟩, w.issue dst t ref.asset)

end World

/-- The calls that change tables. -/
inductive TableCall
  | add (space : SpacePtr) (asset : AssetPtr)
  | allocate (space : SpacePtr)
  | createSpace (space : SpacePtr) (vspace : Except String Unit)
  | move (source target : Option SpacePtr) (ref : AssetRef)
  | copy (target : Option SpacePtr) (ref : AssetRef)
  | remove (space : SpacePtr) (h : ℕ)

def World.step (w : World) : TableCall → Option World
  | .add space asset => (w.addAsset space asset).map Prod.snd
  | .allocate space => (w.allocateAsset space).map Prod.snd
  | .createSpace space vspace => (w.createSpace space vspace).map Prod.snd
  | .move source target ref => (w.assetMove source target ref).map Prod.snd
  | .copy target ref => (w.assetCopy target ref).map Prod.snd
  | .remove space h => (w.assetRemove space h).map Prod.snd

/-! ### The invariant -/

namespace World

structure Inv (w : World) : Prop where
  ok : ∀ {space t}, w.tables space = some t → t.Ok
  known : ∀ {space h r}, w.find space h = some r → (space, h) ∈ w.issued
  bound : ∀ {space h}, (space, h) ∈ w.issued → ∃ t, w.tables space = some t ∧ h ≤ t.allocUid
  nodup : w.issued.Nodup
  fresh : ∀ {space t}, w.tables space = some t → space < w.nextPtr

section Inv

variable {w w' : World} {space : SpacePtr} {t t' : SpaceTable} {h : ℕ} {r : AssetRef}
  {asset : Option AssetPtr}

theorem find_of_table (ht : w.tables space = some t) (h : ℕ) : w.find space h = t.find h := by
  unfold find
  rw [ht]
  rfl

theorem tables_setTable (s : SpacePtr) :
    (w.setTable space t).tables s = if s = space then some t else w.tables s :=
  Function.update_apply _ _ _ _

theorem find_setTable (s : SpacePtr) :
    (w.setTable space t).find s h = if s = space then t.find h else w.find s h := by
  unfold find
  rw [tables_setTable]
  split
  · rfl
  · rfl

theorem Inv.find_issue (hw : w.Inv) (ht : w.tables space = some t) (s : SpacePtr) (k : ℕ) :
    (w.issue space t asset).find s k =
      if s = space ∧ k = t.allocUid + 1 then some ⟨asset, t.allocUid + 1⟩ else w.find s k := by
  change (w.setTable space (t.issue asset)).find s k = _
  rw [find_setTable]
  by_cases hs : s = space
  · rw [if_pos hs, (hw.ok ht).find_issue, hs, find_of_table ht]
    by_cases hk : k = t.allocUid + 1
    · rw [if_pos hk, if_pos ⟨rfl, hk⟩]
    · rw [if_neg hk, if_neg fun hc => hk hc.2]
  · rw [if_neg hs, if_neg fun hc => hs hc.1]

/-- A handle above the counter was not given out. -/
theorem Inv.not_issued (hw : w.Inv) (ht : w.tables space = some t) :
    (space, t.allocUid + 1) ∉ w.issued := by
  intro hmem
  obtain ⟨t', ht', hle⟩ := hw.bound hmem
  rw [ht, Option.some_inj] at ht'
  rw [ht'] at hle
  omega

theorem Inv.issue (hw : w.Inv) (ht : w.tables space = some t) (ha : asset ≠ none) :
    (w.issue space t asset).Inv where
  ok := by
    intro s u hu
    rw [show (w.issue space t asset).tables s = _ from tables_setTable s] at hu
    split at hu
    · rw [← Option.some.inj hu]
      exact (hw.ok ht).issue ha
    · exact hw.ok hu
  known := by
    intro s k r hr
    rw [hw.find_issue ht] at hr
    change (s, k) ∈ (space, t.allocUid + 1) :: w.issued
    split at hr
    · rename_i hsk
      rw [hsk.1, hsk.2]
      exact List.mem_cons_self
    · exact List.mem_cons_of_mem _ (hw.known hr)
  bound := by
    intro s k hmem
    change (s, k) ∈ (space, t.allocUid + 1) :: w.issued at hmem
    rw [show (w.issue space t asset).tables s = _ from tables_setTable s]
    by_cases hs : s = space
    · refine ⟨_, if_pos hs, ?_⟩
      change k ≤ t.allocUid + 1
      rcases List.mem_cons.mp hmem with hmem | hmem
      · exact Nat.le_of_eq (Prod.mk.inj hmem).2
      · obtain ⟨u, hu, hle⟩ := hw.bound hmem
        rw [hs, ht, Option.some_inj] at hu
        rw [← hu] at hle
        omega
    · rw [if_neg hs]
      rcases List.mem_cons.mp hmem with hmem | hmem
      · exact absurd (Prod.mk.inj hmem).1 hs
      · exact hw.bound hmem
  nodup := List.nodup_cons.mpr ⟨hw.not_issued ht, hw.nodup⟩
  fresh := by
    intro s u hu
    change s < w.nextPtr
    rw [show (w.issue space t asset).tables s = _ from tables_setTable s] at hu
    split at hu
    · rename_i hs
      rw [hs]
      exact hw.fresh ht
    · exact hw.fresh hu

/-- An entry is taken out of a table. -/
theorem Inv.moveOut (hw : w.Inv) (ht : w.tables space = some t) (hr : t.find h = some r) :
    ∃ assets, t.assets.moveOut id h = some (r, assets) ∧ (w.setTable space { t with assets }).Inv ∧
      ∀ s k, (w.setTable space { t with assets }).find s k =
        if s = space ∧ k = h then none else w.find s k := by
  obtain ⟨assets, hmove, hok, hfind⟩ := (hw.ok ht).moveOut hr
  have hfind' : ∀ s k, (w.setTable space { t with assets }).find s k =
      if s = space ∧ k = h then none else w.find s k := by
    intro s k
    rw [find_setTable]
    by_cases hs : s = space
    · rw [if_pos hs, hfind, hs, find_of_table ht]
      by_cases hk : k = h
      · rw [if_pos hk, if_pos ⟨rfl, hk⟩]
      · rw [if_neg hk, if_neg fun hc => hk hc.2]
    · rw [if_neg hs, if_neg fun hc => hs hc.1]
  refine ⟨assets, hmove, ⟨?_, ?_, ?_, hw.nodup, ?_⟩, hfind'⟩
  · intro s u hu
    rw [tables_setTable] at hu
    split at hu
    · rw [← Option.some.inj hu]
      exact hok
    · exact hw.ok hu
  · intro s k v hv
    rw [hfind'] at hv
    split at hv
    · cases hv
    · exact hw.known hv
  · intro s k hmem
    obtain ⟨u, hu, hle⟩ := hw.bound hmem
    rw [tables_setTable]
    by_cases hs : s = space
    · rw [hs, ht, Option.some_inj] at hu
      exact ⟨_, if_pos hs, hu ▸ hle⟩
    · exact ⟨u, (if_neg hs).trans hu, hle⟩
  · intro s u hu
    rw [tables_setTable] at hu
    split at hu
    · rename_i hs
      rw [hs]
      exact hw.fresh ht
    · exact hw.fresh hu

/-- A new space. -/
theorem Inv.own (hw : w.Inv) {new uid : ℕ} (hnew : w.tables new = none) (hlt : new < w.nextPtr) :
    Inv { w.setTable new (SpaceTable.own new uid) with issued := (new, 0) :: w.issued } where
  ok := by
    intro s u hu
    rw [show World.tables _ s = _ from tables_setTable s] at hu
    split at hu
    · rw [← Option.some.inj hu]
      exact SpaceTable.ok_own new uid
    · exact hw.ok hu
  known := by
    intro s k r hr
    change (w.setTable new _).find s k = some r at hr
    change (s, k) ∈ (new, 0) :: w.issued
    rw [find_setTable] at hr
    split at hr
    · rename_i hs
      rw [SpaceTable.find_own] at hr
      split at hr
      · rename_i hk
        rw [hs, hk]
        exact List.mem_cons_self
      · cases hr
    · exact List.mem_cons_of_mem _ (hw.known hr)
  bound := by
    intro s k hmem
    change (s, k) ∈ (new, 0) :: w.issued at hmem
    rw [show World.tables _ s = _ from tables_setTable s]
    rcases List.mem_cons.mp hmem with hmem | hmem
    · obtain ⟨rfl, rfl⟩ := Prod.mk.inj hmem
      exact ⟨_, if_pos rfl, Nat.zero_le _⟩
    · obtain ⟨u, hu, hle⟩ := hw.bound hmem
      have hs : s ≠ new := by
        intro hs
        rw [hs, hnew] at hu
        cases hu
      exact ⟨u, (if_neg hs).trans hu, hle⟩
  nodup := by
    refine List.nodup_cons.mpr ⟨fun hmem => ?_, hw.nodup⟩
    obtain ⟨u, hu, -⟩ := hw.bound hmem
    rw [hnew] at hu
    cases hu
  fresh := by
    intro s u hu
    change s < w.nextPtr
    rw [show World.tables _ s = _ from tables_setTable s] at hu
    split at hu
    · rename_i hs
      rw [hs]
      exact hlt
    · exact hw.fresh hu

theorem Inv.raise (hw : w.Inv) {n m : ℕ} (hn : w.nextPtr ≤ n) :
    Inv { w with nextPtr := n, spaceId := m } :=
  ⟨hw.ok, hw.known, hw.bound, hw.nodup, fun ht => Nat.lt_of_lt_of_le (hw.fresh ht) hn⟩

theorem inv_createRoot : createRoot.Inv := by
  have hempty : Inv ⟨fun _ => none, 1, 1, []⟩ := ⟨nofun, nofun, nofun, List.nodup_nil, nofun⟩
  exact hempty.own rfl Nat.one_pos

/-! ### Each call -/

theorem inv_addAsset (hw : w.Inv) {a : AssetPtr} (hs : w.addAsset space a = some (r, w')) : w'.Inv := by
  obtain ⟨t, ht, heq⟩ := Option.map_eq_some_iff.mp hs
  obtain ⟨-, rfl⟩ := Prod.mk.inj heq
  exact hw.issue ht (Option.some_ne_none _)

/-- `allocate_asset` leaves the place of the new asset free. -/
theorem inv_allocateAsset (hw : w.Inv) (hs : w.allocateAsset space = some (r, w')) :
    w'.Inv ∧ w'.tables w.nextPtr = none ∧ w'.nextPtr = w.nextPtr + 1 := by
  have hraise : Inv { w with nextPtr := w.nextPtr + 1 } := hw.raise (Nat.le_succ _)
  refine ⟨inv_addAsset hraise hs, ?_⟩
  obtain ⟨t, ht, heq⟩ := Option.map_eq_some_iff.mp hs
  obtain ⟨-, rfl⟩ := Prod.mk.inj heq
  refine ⟨?_, rfl⟩
  change (World.setTable { w with nextPtr := w.nextPtr + 1 } space _).tables w.nextPtr = none
  rw [tables_setTable]
  have hlt := hw.fresh (show w.tables space = some t from ht)
  rw [if_neg (Nat.ne_of_gt hlt)]
  by_contra hne
  obtain ⟨u, hu⟩ := Option.ne_none_iff_exists'.mp hne
  exact absurd (hw.fresh hu) (Nat.lt_irrefl _)

/-- **`_asset_remove`** takes out the entry of a present handle. -/
theorem assetRemove_spec (hw : w.Inv) (hs : w.assetRemove space h = some (r, w')) :
    w'.Inv ∧ w.find space h = some r ∧ w'.issued = w.issued ∧
      ∀ s k, w'.find s k = if s = space ∧ k = h then none else w.find s k := by
  obtain ⟨t, ht, hs⟩ := Option.bind_eq_some_iff.mp hs
  split at hs
  · cases hs
  · rename_i hhas
    obtain ⟨v, hv⟩ := (UMap.has_eq_true (hw.ok ht).map).mp ((Bool.not_eq_false _).mp hhas)
    obtain ⟨assets, hmove, hinv, hfind⟩ := hw.moveOut ht hv
    rw [hmove, Option.map_some, Option.some_inj] at hs
    obtain ⟨rfl, rfl⟩ := Prod.mk.inj hs
    exact ⟨hinv, (find_of_table ht h).trans hv, rfl, hfind⟩

theorem inv_createSpace (hw : w.Inv) {vspace : Except String Unit} {res : Except String AssetRef}
    (hs : w.createSpace space vspace = some (res, w')) : w'.Inv := by
  obtain ⟨⟨ptr, w₁⟩, hptr, hs⟩ := Option.bind_eq_some_iff.mp hs
  obtain ⟨h₁, hnone, hnext⟩ := inv_allocateAsset hw hptr
  cases vspace with
  | error e =>
    obtain ⟨⟨v, w₂⟩, hrem, heq⟩ := Option.map_eq_some_iff.mp hs
    obtain ⟨-, rfl⟩ := Prod.mk.inj heq
    exact (assetRemove_spec h₁ hrem).1
  | ok u =>
    obtain ⟨-, rfl⟩ := Prod.mk.inj (Option.some.inj hs)
    have hraise : Inv { w₁ with spaceId := w₁.spaceId + 1 } := h₁.raise (Nat.le_refl _)
    have hlt : w.nextPtr < w₁.nextPtr := by
      rw [hnext]
      exact Nat.lt_succ_self _
    exact hraise.own hnone hlt

/-- What a move that succeeds does: the entry leaves the source and gets one new
handle in the target, and nothing else changes. -/
structure Moved (w w' : World) (src dst : SpacePtr) (h : ℕ) (moved : AssetRef) : Prop where
  entry : ∃ r, w.find src h = some r ∧ r.asset = moved.asset
  fresh : (dst, moved.handle) ∉ w.issued
  issued : w'.issued = (dst, moved.handle) :: w.issued
  find_eq : ∀ s k, w'.find s k = if s = dst ∧ k = moved.handle then some moved
    else if s = src ∧ k = h then none else w.find s k

/-- **`asset_move`**: an error leaves the tables as they are. -/
theorem assetMove_spec (hw : w.Inv) {source target : Option SpacePtr} {ref : AssetRef}
    {res : Except String AssetRef} (hs : w.assetMove source target ref = some (res, w')) :
    w'.Inv ∧ ((∃ e, res = .error e) ∧ w' = w ∨
      ∃ src dst moved, source = some src ∧ target = some dst ∧ res = .ok moved ∧
        Moved w w' src dst ref.handle moved) := by
  unfold assetMove at hs
  split at hs
  · rename_i src dst
    split at hs
    · obtain ⟨rfl, rfl⟩ := Prod.mk.inj (Option.some.inj hs)
      exact ⟨hw, .inl ⟨⟨_, rfl⟩, rfl⟩⟩
    · obtain ⟨t, ht, hs⟩ := Option.bind_eq_some_iff.mp hs
      split at hs
      · obtain ⟨rfl, rfl⟩ := Prod.mk.inj (Option.some.inj hs)
        exact ⟨hw, .inl ⟨⟨_, rfl⟩, rfl⟩⟩
      · rename_i hhas
        obtain ⟨v, hv⟩ := (UMap.has_eq_true (hw.ok ht).map).mp ((Bool.not_eq_false _).mp hhas)
        obtain ⟨assets, hmove, hinv, hfind⟩ := hw.moveOut ht hv
        rw [hmove, Option.bind_some] at hs
        obtain ⟨t', ht', heq⟩ := Option.map_eq_some_iff.mp hs
        obtain ⟨rfl, rfl⟩ := Prod.mk.inj heq
        have hasset := ((hw.ok ht).entry hv).2.1
        refine ⟨hinv.issue ht' hasset, .inr ⟨src, dst, _, rfl, rfl, rfl, ?_⟩⟩
        refine ⟨⟨v, (find_of_table ht _).trans hv, rfl⟩, hinv.not_issued ht', rfl, fun s k => ?_⟩
        rw [hinv.find_issue ht', hfind]
  · obtain ⟨rfl, rfl⟩ := Prod.mk.inj (Option.some.inj hs)
    exact ⟨hw, .inl ⟨⟨_, rfl⟩, rfl⟩⟩

theorem inv_assetCopy (hw : w.Inv) {target : Option SpacePtr} {ref : AssetRef}
    {res : Except String AssetRef} (hs : w.assetCopy target ref = some (res, w')) : w'.Inv := by
  unfold assetCopy at hs
  split at hs
  · obtain ⟨-, rfl⟩ := Prod.mk.inj (Option.some.inj hs)
    exact hw
  · split at hs
    · obtain ⟨-, rfl⟩ := Prod.mk.inj (Option.some.inj hs)
      exact hw
    · rename_i ha
      split at hs
      · cases hs
      · obtain ⟨t, ht, heq⟩ := Option.map_eq_some_iff.mp hs
        obtain ⟨-, rfl⟩ := Prod.mk.inj heq
        exact hw.issue ht ha

/-- **One call** keeps the invariant. -/
theorem inv_step (hw : w.Inv) (call : TableCall) (hs : w.step call = some w') : w'.Inv := by
  cases call with
  | add space asset =>
    obtain ⟨⟨r, w₁⟩, hcall, rfl⟩ := Option.map_eq_some_iff.mp hs
    exact inv_addAsset hw hcall
  | allocate space =>
    obtain ⟨⟨r, w₁⟩, hcall, rfl⟩ := Option.map_eq_some_iff.mp hs
    exact (inv_allocateAsset hw hcall).1
  | createSpace space vspace =>
    obtain ⟨⟨r, w₁⟩, hcall, rfl⟩ := Option.map_eq_some_iff.mp hs
    exact inv_createSpace hw hcall
  | move source target ref =>
    obtain ⟨⟨r, w₁⟩, hcall, rfl⟩ := Option.map_eq_some_iff.mp hs
    exact (assetMove_spec hw hcall).1
  | copy target ref =>
    obtain ⟨⟨r, w₁⟩, hcall, rfl⟩ := Option.map_eq_some_iff.mp hs
    exact inv_assetCopy hw hcall
  | remove space h =>
    obtain ⟨⟨r, w₁⟩, hcall, rfl⟩ := Option.map_eq_some_iff.mp hs
    exact (assetRemove_spec hw hcall).1

/-- The tables fit together: every entry has its own handle and an asset, no key
is there twice, no handle was given out twice, and moves move. -/
structure Consistent (w : World) : Prop where
  entries : ∀ {space t}, w.tables space = some t → ∀ e ∈ t.assets.entries,
    e.2.handle = e.1 ∧ e.2.asset ≠ none ∧ (space, e.1) ∈ w.issued
  keys : ∀ {space t}, w.tables space = some t → (t.assets.entries.map Prod.fst).Nodup
  once : w.issued.Nodup
  moves : ∀ {source target ref moved w'}, w.assetMove source target ref = some (.ok moved, w') →
    ∃ src dst, source = some src ∧ target = some dst ∧ Moved w w' src dst ref.handle moved

theorem Inv.consistent (hw : w.Inv) : w.Consistent := by
  refine ⟨fun {s u} hu e he => ?_, fun hu => (hw.ok hu).map.keys_nodup, hw.nodup, ?_⟩
  · have hfind : u.find e.1 = some e.2 := (UMap.get_eq_some (hw.ok hu).map).mpr he
    obtain ⟨h1, h2, -⟩ := (hw.ok hu).entry hfind
    exact ⟨h1, h2, hw.known ((find_of_table hu _).trans hfind)⟩
  · intro source target ref moved w' hs
    rcases (assetMove_spec hw hs).2 with ⟨⟨e, he⟩, -⟩ | ⟨src, dst, moved', h1, h2, h3, hmoved⟩
    · cases he
    · obtain rfl := Except.ok.inj h3
      exact ⟨src, dst, h1, h2, hmoved⟩

/-- **The tables stay consistent** along every run from `create_root`. -/
theorem tables_consistent (calls : List TableCall) (w : World)
    (hrun : Lib.run World.step calls createRoot = some w) : w.Consistent :=
  (Lib.run_invariant (P := Inv) (fun _ call _ hw hs => inv_step hw call hs) inv_createRoot hrun).consistent

/-- A space is made, an asset is made and moved into it and back, and one is
removed. -/
def someCalls : List TableCall :=
  [.createSpace 0 (.ok ()), .allocate 0, .move (some 0) (some 1) ⟨some 2, 18⟩,
    .move (some 1) (some 0) ⟨some 2, 10017⟩, .copy (some 1) ⟨some 2, 19⟩, .remove 0 19]

theorem tables_consistent_some :
    ∃ w, Lib.run World.step someCalls createRoot = some w ∧ w.Consistent := by
  have hsome : (Lib.run World.step someCalls createRoot).isSome = true := by decide +kernel
  obtain ⟨w, hrun⟩ := Option.isSome_iff_exists.mp hsome
  exact ⟨w, hrun, tables_consistent someCalls w hrun⟩

end Inv
end World
end WingOS
