/-
# Mappings and the handles of their memory

A mapping keeps the reference to its memory as it was when the mapping was made,
with the handle the memory had in the table of the space. `mem_release` looks up
that handle. A move gives the memory a new handle, or takes the mapping to
another table, and a release takes the handle away: then the handle leads
nowhere, or to an asset that has nothing to do with it (`handle_lost`).

A run keeps clear of that if no mapping goes to another space, and no handle
that a mapping of the space still has is moved or released (`TieOk`). Then every
mapping finds its memory (`mappings_tied`).

Key definitions: `Refers`, `Tied`, `ReleaseExact`, `TieOk`, `Shrinks`.
Key theorems: `shrinks_deref`, `ties_step`, `mappings_tied`, `handle_lost`.
-/
import WingOS.StaleMappings

namespace WingOS
namespace Kernel

/-- The asset under the handle `h` is a mapping with this memory. -/
def Refers (s : Kernel) (space : SpacePtr) (h : ℕ) (physicalMem : AssetRef) : Prop :=
  ∃ p start stop writable executable, (s.tables space).assetAt h = some p ∧
    s.kindAt p = some (.mapping start stop physicalMem writable executable)

/-- Every mapping in a space finds its memory there, under the handle it has. -/
def Tied (s : Kernel) : Prop :=
  ∀ space h physicalMem, s.Refers space h physicalMem →
    (s.tables space).assetAt physicalMem.handle = physicalMem.asset ∧ physicalMem.asset ≠ none

/-- `mem_release` takes out the entries of the mapping and of its memory, and
nothing else. -/
def ReleaseExact (s : Kernel) : Prop :=
  ∀ caller start stop found physicalMem s₁, s.mappingAt caller found start stop = some physicalMem →
    s.assetRemove caller found = some s₁ →
      (s₁.tables caller).assetAt physicalMem.handle = physicalMem.asset ∧ physicalMem.asset ≠ none ∧
      ∀ space k, (s₁.tables space).assets k =
        if space = caller ∧ k = found then none else (s.tables space).assets k

/-- The handle `k` is in no mapping of the space, up to the one under `x`. -/
def OnlyBy (s : Kernel) (space : SpacePtr) (k x : ℕ) : Prop :=
  ∀ h physicalMem, s.Refers space h physicalMem → physicalMem.handle = k → h = x

/-- What a call needs, so that no mapping loses its memory. -/
def TieOk (s : Kernel) (op : SpacePtr × Syscall) : Prop :=
  match op.2 with
  | .memOwn _ _ _ => True
  | .map _ _ _ _ _ _ => True
  | .assetRelease space asset start stop found =>
    if asset.toNat = invalidHandle ∧ start.toNat ≠ 0 then
      ∀ physicalMem, s.mappingAt op.1 found.toNat start.toNat stop.toNat = some physicalMem →
        s.OnlyBy op.1 physicalMem.handle found.toNat
    else
      ∀ target, s.targetSpace op.1 space.toNat = .ok target →
        s.OnlyBy target asset.toNat asset.toNat
  | .assetMove source target asset =>
    ∀ src dst, s.targetSpace op.1 source.toNat = .ok src → s.targetSpace op.1 target.toNat = .ok dst →
      s.OnlyBy src asset.toNat asset.toNat ∧
        ∀ physicalMem, s.Refers src asset.toNat physicalMem → src = dst

/-! ### What is dropped -/

/-- Assets are deleted and whole tables are emptied, and that is all. -/
structure Shrinks (s s' : Kernel) : Prop where
  next : s'.nextPtr = s.nextPtr
  kinds : ∀ {p k}, s'.kindAt p = some k → s.kindAt p = some k
  tables : ∀ space, s'.tables space = s.tables space ∨ ∀ h, (s'.tables space).assetAt h = none

theorem Shrinks.refl (s : Kernel) : Shrinks s s := ⟨rfl, id, fun _ => .inl rfl⟩

theorem Shrinks.trans {s s₁ s₂ : Kernel} (h : Shrinks s s₁) (h' : Shrinks s₁ s₂) : Shrinks s s₂ := by
  refine ⟨h'.next.trans h.next, fun hk => h.kinds (h'.kinds hk), fun space => ?_⟩
  rcases h'.tables space with heq | hempty
  · rw [heq]
    exact h.tables space
  · exact .inr hempty

section Drop

variable {s s' : Kernel} {a : AssetPtr}

theorem shrinks_delete (s : Kernel) (a : AssetPtr) : Shrinks s (s.setAsset a none) := by
  refine ⟨rfl, fun {p k} hk => ?_, fun _ => .inl rfl⟩
  rw [kindAt_setAsset] at hk
  rcases eq_or_ne p a with rfl | hne
  · rw [Function.update_self] at hk
    cases hk
  · rw [Function.update_of_ne hne] at hk
    exact hk

theorem shrinks_setCount {x : Asset} (hx : s.heap a = some x) (n : ℕ) :
    Shrinks s (s.setAsset a (some { x with refCount := n })) := by
  refine ⟨rfl, fun {p k} hk => ?_, fun _ => .inl rfl⟩
  rw [kindAt_setAsset] at hk
  rcases eq_or_ne p a with rfl | hne
  · rw [Function.update_self] at hk
    rw [kindAt_of_heap hx]
    exact hk
  · rw [Function.update_of_ne hne] at hk
    exact hk

theorem shrinks_setPmm (pmm : Pmm) : Shrinks s (s.setPmm pmm) := ⟨rfl, id, fun _ => .inl rfl⟩

theorem shrinks_clear (space : SpacePtr) (uid : ℕ) : Shrinks s (s.setTable space (AssetTable.empty uid)) := by
  refine ⟨rfl, id, fun sp => ?_⟩
  unfold setTable
  dsimp only
  rcases eq_or_ne sp space with rfl | hne
  · rw [Function.update_self]
    exact .inr fun _ => rfl
  · rw [Function.update_of_ne hne]
    exact .inl rfl

theorem shrinks_foldlM {α : Type} {f : Kernel → α → Option Kernel}
    (hf : ∀ s x s', f s x = some s' → Shrinks s s') : ∀ (l : List α) {s s' : Kernel},
    l.foldlM f s = some s' → Shrinks s s'
  | [], s, s', h => by
    obtain rfl := Option.some.inj h
    exact Shrinks.refl s
  | x :: l, s, s', h => by
    rw [List.foldlM_cons] at h
    obtain ⟨s₁, h₁, h₂⟩ := Option.bind_eq_some_iff.mp h
    exact (hf s x s₁ h₁).trans (shrinks_foldlM hf l h₂)

/-- **`Asset::deref`** only takes away. -/
theorem shrinks_deref : ∀ (depth : ℕ) {a : AssetPtr} {s s' : Kernel},
    s.deref depth a = some s' → Shrinks s s'
  | 0, _, _, _, h => by cases h
  | depth + 1, a, s, s', h => by
    unfold deref at h
    split at h
    · obtain rfl := Option.some.inj h
      exact Shrinks.refl s
    · rename_i x hx
      split at h
      · obtain rfl := Option.some.inj h
        exact shrinks_setCount hx _
      · split at h
        · obtain rfl := Option.some.inj h
          exact shrinks_setCount hx _
        · split at h
          · split at h
            · obtain ⟨⟨res, pmm⟩, -, rfl⟩ := Option.map_eq_some_iff.mp h
              exact (shrinks_setPmm pmm).trans (shrinks_delete _ a)
            · obtain rfl := Option.some.inj h
              exact shrinks_delete s a
          · split at h
            · obtain rfl := Option.some.inj h
              exact shrinks_delete s a
            · exact (shrinks_delete s a).trans (shrinks_deref depth h)
          · refine ((shrinks_clear a _).trans (shrinks_delete _ a)).trans
              (shrinks_foldlM (fun s₁ k s₂ hk => ?_) _ h)
            split at hk
            · obtain rfl := Option.some.inj hk
              exact Shrinks.refl s₁
            · exact shrinks_deref depth hk

/-- A memory that is dropped changes no table. -/
theorem tables_derefMemory (hkind : ∀ k, s.kindAt a = some k → k.isMemory = true) {depth : ℕ}
    (h : s.deref depth a = some s') : s'.tables = s.tables := by
  cases depth with
  | zero => cases h
  | succ depth =>
    unfold deref at h
    split at h
    · obtain rfl := Option.some.inj h
      rfl
    · rename_i x hx
      have hmem := hkind _ (kindAt_of_heap hx)
      split at h
      · obtain rfl := Option.some.inj h
        rfl
      · split at h
        · obtain rfl := Option.some.inj h
          rfl
        · split at h
          · split at h
            · obtain ⟨⟨res, pmm⟩, -, rfl⟩ := Option.map_eq_some_iff.mp h
              rfl
            · obtain rfl := Option.some.inj h
              rfl
          · rename_i hk
            rw [hk] at hmem
            cases hmem
          · rename_i hk
            rw [hk] at hmem
            cases hmem

theorem tables_derefMapping {start stop : ℕ} {physicalMem : AssetRef} {writable executable : Bool}
    (hkind : s.kindAt a = some (.mapping start stop physicalMem writable executable))
    (hmem : ∀ m k, physicalMem.asset = some m → s.kindAt m = some k → k.isMemory = true) {depth : ℕ}
    (h : s.deref depth a = some s') : s'.tables = s.tables := by
  cases depth with
  | zero => cases h
  | succ depth =>
    obtain ⟨n, hn⟩ := kindAt_eq_some.mp hkind
    unfold deref at h
    rw [hn] at h
    dsimp only at h
    split at h
    · obtain rfl := Option.some.inj h
      rfl
    · split at h
      · obtain rfl := Option.some.inj h
        rfl
      · split at h
        · obtain rfl := Option.some.inj h
          rfl
        · rename_i m hm
          have htables := tables_derefMemory
            (fun k hk => hmem m k hm ((shrinks_delete s a).kinds hk)) h
          exact htables

/-- What `_asset_remove` leaves. -/
theorem assetRemove_shrinks {space : SpacePtr} {k : ℕ} (h : s.assetRemove space k = some s') :
    Shrinks (s.setTable space ((s.tables space).moveOut k)) s' := by
  unfold assetRemove at h
  split at h
  · cases h
  · dsimp only at h
    split at h
    · obtain rfl := Option.some.inj h
      exact Shrinks.refl _
    · exact shrinks_deref _ h

end Drop

/-! ### The invariant -/

structure Ties (s : Kernel) : Prop where
  tied : s.Tied
  entries : ∀ {space h a}, (s.tables space).assetAt h = some a → a < s.nextPtr
  kinds : ∀ {p}, s.kindAt p ≠ none → p < s.nextPtr
  older : ∀ {p start stop physicalMem writable executable},
    s.kindAt p = some (.mapping start stop physicalMem writable executable) →
    ∃ m, physicalMem.asset = some m ∧ m < p ∧ ∀ k, s.kindAt m = some k → k.isMemory = true

section Ties

variable {s s' : Kernel} {space : SpacePtr} {a : AssetPtr} {k : ℕ} {physicalMem : AssetRef}
  {kind : AssetKind}

theorem Ties.congr (h : s.Ties) (htables : s'.tables = s.tables) (hkinds : s'.kindAt = s.kindAt)
    (hnext : s'.nextPtr = s.nextPtr) : s'.Ties := by
  refine ⟨?_, ?_, ?_, ?_⟩
  · unfold Tied Refers
    rw [htables, hkinds]
    exact h.tied
  · rw [htables, hnext]
    exact h.entries
  · rw [hkinds, hnext]
    exact h.kinds
  · rw [hkinds]
    exact h.older

theorem Ties.shrinks (h : s.Ties) (hs : Shrinks s s') : s'.Ties := by
  refine ⟨?_, ?_, ?_, ?_⟩
  · intro space k pm ⟨p, start, stop, writable, executable, hp, hkind⟩
    rcases hs.tables space with heq | hempty
    · rw [heq] at hp ⊢
      exact h.tied space k pm ⟨p, start, stop, writable, executable, hp, hs.kinds hkind⟩
    · rw [hempty] at hp
      cases hp
  · intro space k b hb
    rw [hs.next]
    rcases hs.tables space with heq | hempty
    · rw [heq] at hb
      exact h.entries hb
    · rw [hempty] at hb
      cases hb
  · intro p hp
    obtain ⟨kind, hkind⟩ := Option.ne_none_iff_exists'.mp hp
    rw [hs.next]
    exact h.kinds (by rw [hs.kinds hkind]; exact Option.some_ne_none _)
  · intro p start stop pm writable executable hp
    obtain ⟨m, hm, hlt, hmem⟩ := h.older (hs.kinds hp)
    exact ⟨m, hm, hlt, fun k hk => hmem k (hs.kinds hk)⟩

/-- The handle in a mapping leads to an asset that is older. -/
theorem Ties.refers_older (h : s.Ties) (hr : s.Refers space k physicalMem) :
    ∃ p m, (s.tables space).assetAt k = some p ∧ (s.tables space).assetAt physicalMem.handle = some m ∧
      m < p ∧ p < s.nextPtr ∧ ∀ kind, s.kindAt m = some kind → kind.isMemory = true := by
  obtain ⟨p, start, stop, writable, executable, hp, hkind⟩ := hr
  obtain ⟨m, hm, hlt, hmem⟩ := h.older hkind
  refine ⟨p, m, hp, ?_, hlt, h.entries hp, hmem⟩
  rw [(h.tied space k physicalMem ⟨p, start, stop, writable, executable, hp, hkind⟩).1]
  exact hm

/-- A mapping does not have its own handle. -/
theorem Ties.handle_ne (h : s.Ties) (hr : s.Refers space k physicalMem) : physicalMem.handle ≠ k := by
  intro heq
  obtain ⟨p, m, hp, hm, hlt, -⟩ := h.refers_older hr
  rw [heq, hp, Option.some_inj] at hm
  rw [hm] at hlt
  exact Nat.lt_irrefl _ hlt

/-- The handle of the newest asset is in no mapping. -/
theorem Ties.onlyBy_newest (h : s.Ties) (ha : (s.tables space).assetAt k = some a)
    (hnew : s.nextPtr = a + 1) (x : ℕ) : s.OnlyBy space k x := by
  intro j pm hr heq
  obtain ⟨p, m, -, hm, hlt, hp, -⟩ := h.refers_older hr
  rw [heq, ha, Option.some_inj] at hm
  rw [hnew, hm] at hp
  exact absurd (Nat.lt_of_lt_of_le hlt (Nat.le_of_lt_succ hp)) (Nat.lt_irrefl _)

/-- No mapping has the handle of a mapping. -/
theorem Ties.onlyBy_mapping (h : s.Ties) (hr : s.Refers space k physicalMem) (x : ℕ) :
    s.OnlyBy space k x := by
  intro j pm hj heq
  obtain ⟨p, m, -, hm, -, -, hmem⟩ := h.refers_older hj
  obtain ⟨q, start, stop, writable, executable, hq, hkind⟩ := hr
  rw [heq, hq, Option.some_inj] at hm
  rw [hm] at hkind
  cases hmem _ hkind

/-- A handle that no mapping has is taken away. -/
theorem Ties.moveOut (h : s.Ties) (honly : s.OnlyBy space k k) :
    (s.setTable space ((s.tables space).moveOut k)).Ties := by
  refine ⟨?_, ?_, h.kinds, h.older⟩
  · intro sp j pm ⟨p, start, stop, writable, executable, hp, hkind⟩
    rw [assetAt_remove] at hp ⊢
    split at hp
    · cases hp
    · rename_i hne
      have hr : s.Refers sp j pm := ⟨p, start, stop, writable, executable, hp, hkind⟩
      rw [if_neg]
      · exact h.tied sp j pm hr
      · intro ⟨hsp, hj⟩
        rw [hsp] at hr
        exact hne ⟨hsp, honly j pm hr hj⟩
  · intro sp j b hb
    rw [assetAt_remove] at hb
    split at hb
    · cases hb
    · exact h.entries hb

theorem Ties.assetRemove (h : s.Ties) (honly : s.OnlyBy space k k)
    (hs : s.assetRemove space k = some s') : s'.Ties :=
  (h.moveOut honly).shrinks (assetRemove_shrinks hs)

/-- A new asset; a mapping has its memory in the same space. -/
theorem Ties.allocateAsset (h : s.Ties) {kind : AssetKind}
    (hkind : ∀ start stop pm writable executable, kind = .mapping start stop pm writable executable →
      (s.tables space).assetAt pm.handle = pm.asset ∧
        ∃ m, pm.asset = some m ∧ ∀ k, s.kindAt m = some k → k.isMemory = true) :
    (s.allocateAsset space kind).Ties := by
  have hold : ∀ {sp j m}, (s.tables sp).assetAt j = some m →
      ((s.allocateAsset space kind).tables sp).assetAt j = some m := by
    intro sp j m hm
    rw [assetAt_allocate, if_neg]
    · exact hm
    · intro ⟨hsp, hj⟩
      rw [hsp, hj, AssetTable.assetAt_of_lt (Nat.lt_succ_self _)] at hm
      cases hm
  have hkinds : ∀ {m}, m < s.nextPtr → (s.allocateAsset space kind).kindAt m = s.kindAt m := by
    intro m hm
    rw [kindAt_allocateAsset, Function.update_of_ne (Nat.ne_of_lt hm)]
  refine ⟨?_, ?_, ?_, ?_⟩
  · intro sp j pm ⟨p, start, stop, writable, executable, hp, hpk⟩
    rw [assetAt_allocate] at hp
    split at hp
    · rename_i hsj
      obtain rfl := Option.some.inj hp
      rw [kindAt_allocateAsset, Function.update_self, Option.some_inj] at hpk
      obtain ⟨hat, m, hm, -⟩ := hkind _ _ _ _ _ hpk
      rw [hm] at hat ⊢
      rw [hsj.1]
      exact ⟨hold hat, Option.some_ne_none _⟩
    · rw [hkinds (h.entries hp)] at hpk
      obtain ⟨hat, hne⟩ := h.tied sp j pm ⟨p, start, stop, writable, executable, hp, hpk⟩
      obtain ⟨m, hm⟩ := Option.ne_none_iff_exists'.mp hne
      rw [hm] at hat ⊢
      exact ⟨hold hat, Option.some_ne_none _⟩
  · intro sp j b hb
    rw [assetAt_allocate] at hb
    split at hb
    · rw [← Option.some.inj hb]
      exact Nat.lt_succ_self _
    · exact Nat.lt_succ_of_lt (h.entries hb)
  · intro p hp
    rw [kindAt_allocateAsset] at hp
    rcases eq_or_ne p s.nextPtr with rfl | hne
    · exact Nat.lt_succ_self _
    · rw [Function.update_of_ne hne] at hp
      exact Nat.lt_succ_of_lt (h.kinds hp)
  · intro p start stop pm writable executable hp
    rw [kindAt_allocateAsset] at hp
    rcases eq_or_ne p s.nextPtr with rfl | hne
    · rw [Function.update_self, Option.some_inj] at hp
      obtain ⟨hat, m, hm, hmem⟩ := hkind _ _ _ _ _ hp
      have hlt : m < s.nextPtr := h.entries (hat.trans hm)
      refine ⟨m, hm, hlt, fun k hk => hmem k ?_⟩
      rw [hkinds hlt] at hk
      exact hk
    · rw [Function.update_of_ne hne] at hp
      obtain ⟨m, hm, hlt, hmem⟩ := h.older hp
      refine ⟨m, hm, hlt, fun k hk => hmem k ?_⟩
      have hp' : p < s.nextPtr := h.kinds (by rw [hp]; exact Option.some_ne_none _)
      rw [hkinds (Nat.lt_trans hlt hp')] at hk
      exact hk

/-- The address of a memory is set. -/
theorem Ties.setMemory (h : s.Ties) {k : AssetKind} (hk : s.kindAt a = some k) (n size addr : ℕ)
    (allocated : Bool) : (s.setAsset a (some ⟨n, .memory size addr allocated⟩)).Ties := by
  have hmapping : ∀ {p start stop pm writable executable},
      (s.setAsset a (some ⟨n, .memory size addr allocated⟩)).kindAt p =
        some (.mapping start stop pm writable executable) →
      s.kindAt p = some (.mapping start stop pm writable executable) := by
    intro p start stop pm writable executable hp
    rw [kindAt_setAsset] at hp
    rcases eq_or_ne p a with rfl | hne
    · rw [Function.update_self] at hp
      cases hp
    · rw [Function.update_of_ne hne] at hp
      exact hp
  refine ⟨?_, h.entries, ?_, ?_⟩
  · intro sp j pm ⟨p, start, stop, writable, executable, hp, hpk⟩
    exact h.tied sp j pm ⟨p, start, stop, writable, executable, hp, hmapping hpk⟩
  · intro p hp
    rw [kindAt_setAsset] at hp
    rcases eq_or_ne p a with rfl | hne
    · exact h.kinds (by rw [hk]; exact Option.some_ne_none _)
    · rw [Function.update_of_ne hne] at hp
      exact h.kinds hp
  · intro p start stop pm writable executable hp
    obtain ⟨m, hm, hlt, hmem⟩ := h.older (hmapping hp)
    refine ⟨m, hm, hlt, fun k hk => ?_⟩
    rw [kindAt_setAsset] at hk
    rcases eq_or_ne m a with rfl | hne
    · rw [Function.update_self] at hk
      rw [← Option.some.inj hk]
      rfl
    · rw [Function.update_of_ne hne] at hk
      exact hmem k hk

/-! ### The calls -/

/-- The asset that was just made is dropped again. -/
theorem Ties.remove_new (h : (s.allocateAsset space kind).Ties) {vm : Vmm}
    (hs : ({ s.allocateAsset space kind with vm } : Kernel).assetRemove space
      ((s.tables space).allocUid + 1) = some s') : s'.Ties := by
  have h' : ({ s.allocateAsset space kind with vm } : Kernel).Ties := h.congr rfl rfl rfl
  refine h'.assetRemove (h'.onlyBy_newest (a := s.nextPtr) ?_ rfl _) hs
  exact assetAt_allocateAsset s space kind

/-- A call that returns in a state that has its ties. -/
theorem Ties.returned {res res' : Except String ℕ} (h : s.Ties) (hs : some (res, s) = some (res', s')) : s'.Ties := by
  cases hs
  exact h

theorem ties_createMemory (h : s.Ties) {size addr : ℕ} {lower : Bool} {res : Except String ℕ}
    (hs : s.createMemory space size addr lower = some (res, s')) : s'.Ties := by
  unfold createMemory at hs
  split at hs
  · exact h.returned hs
  · split at hs
    · exact h.returned hs
    · dsimp only at hs
      have hnew : (s.allocateAsset space (.memory size addr (decide (addr = 0)))).Ties :=
        h.allocateAsset nofun
      split at hs
      · split at hs
        · obtain ⟨s₁, hrem, heq⟩ := Option.map_eq_some_iff.mp hs
          obtain ⟨-, rfl⟩ := Prod.mk.inj heq
          exact hnew.remove_new hrem
        · rename_i pmm _
          obtain ⟨-, rfl⟩ := Prod.mk.inj (Option.some.inj hs)
          have hpmm : ((s.allocateAsset space (.memory size addr (decide (addr = 0)))).setPmm pmm).Ties :=
            hnew.congr rfl rfl rfl
          exact hpmm.setMemory (kindAt_of_heap (heap_allocateAsset s space _)) _ _ _ _
      · refine Ties.returned ?_ hs
        exact hnew.congr rfl rfl rfl

theorem ties_createMapping (h : s.Ties) {start stop size addr : ℕ} {memory : AssetPtr}
    {writable executable : Bool} {res : Except String ℕ}
    (hat : (s.tables space).assetAt physicalMem.handle = physicalMem.asset)
    (hasset : physicalMem.asset = some memory)
    (hmem : ∀ k, s.kindAt memory = some k → k.isMemory = true)
    (hs : s.createMapping space start stop physicalMem memory size addr writable executable =
      some (res, s')) : s'.Ties := by
  have hown : (s.own memory).Ties := h.congr rfl (kindAt_own s memory) rfl
  have hnew : ((s.own memory).allocateAsset space
      (.mapping start stop physicalMem writable executable)).Ties := by
    refine hown.allocateAsset fun _ _ pm _ _ heq => ?_
    obtain ⟨-, -, rfl, -, -⟩ := AssetKind.mapping.inj heq
    refine ⟨hat, memory, hasset, ?_⟩
    rw [kindAt_own]
    exact hmem
  unfold createMapping at hs
  dsimp only at hs
  split at hs
  · exact hnew.returned hs
  · split at hs
    · exact hnew.returned hs
    · split at hs
      · obtain ⟨s₁, hrem, heq⟩ := Option.map_eq_some_iff.mp hs
        obtain ⟨-, rfl⟩ := Prod.mk.inj heq
        exact hnew.remove_new hrem
      · refine Ties.returned ?_ hs
        exact hnew.congr rfl rfl rfl

/-- The asset that `by_handle` finds. -/
theorem byHandle_assetAt {r : AssetRef} {x : Asset} (h : s.byHandle space k = .ok (r, a, x)) :
    (s.tables space).assetAt k = some a ∧ r.handle = k ∧ r.asset = some a ∧ s.kindAt a = some x.kind := by
  obtain ⟨hr, ha, hx⟩ := byHandle_ok h
  exact ⟨AssetTable.assetAt_eq_some.mpr ⟨r, hr, ha⟩, (s.tables space).handle_eq hr, ha, kindAt_of_heap hx⟩

theorem mappingAt_refers {found start stop : ℕ}
    (h : s.mappingAt space found start stop = some physicalMem) : s.Refers space found physicalMem := by
  unfold mappingAt at h
  split at h
  · cases h
  · rename_i r p x hx
    obtain ⟨hp, -, -, hkind⟩ := byHandle_assetAt hx
    split at h
    · rename_i start' stop' pm writable executable hk
      split at h
      · rw [hk] at hkind
        obtain rfl := Option.some.inj h
        exact ⟨p, start', stop', writable, executable, hp, hkind⟩
      · cases h
    · cases h

variable {caller : SpacePtr} {res : Except String ℕ}

theorem ties_map (h : s.Ties) {target start stop memory : ℕ} {writable executable : Bool}
    (hs : s.map caller target start stop memory writable executable = some (res, s')) : s'.Ties := by
  unfold map at hs
  split at hs
  · exact h.returned hs
  · split at hs
    · exact h.returned hs
    · split at hs
      · exact h.returned hs
      · rename_i r m x hx
        obtain ⟨hat, hr, hm, hkind⟩ := byHandle_assetAt hx
        split at hs
        · rename_i hk
          refine ties_createMapping h ?_ hm (fun k hk' => ?_) hs
          · rw [hr, hat, hm]
          · rw [hkind, hk, Option.some_inj] at hk'
            rw [← hk']
            rfl
        · exact h.returned hs

theorem ties_memRelease (h : s.Ties) {start stop found : ℕ}
    (hok : ∀ pm, s.mappingAt caller found start stop = some pm → s.OnlyBy caller pm.handle found)
    (hs : s.memRelease caller start stop found = some (res, s')) : s'.Ties := by
  unfold memRelease at hs
  split at hs
  · exact h.returned hs
  · rename_i pm hpm
    have hr := mappingAt_refers hpm
    split at hs
    · exact h.returned hs
    · obtain ⟨s₁, h₁, hs⟩ := Option.bind_eq_some_iff.mp hs
      obtain ⟨s₂, h₂, heq⟩ := Option.map_eq_some_iff.mp hs
      obtain ⟨-, rfl⟩ := Prod.mk.inj heq
      have hties := h.assetRemove (h.onlyBy_mapping hr found) h₁
      refine hties.assetRemove (fun j pm' hj heq' => ?_) h₂
      -- the mapping under `j` was there before, and `found` is gone
      obtain ⟨p, start', stop', writable, executable, hp, hkind⟩ := hj
      have hshr := assetRemove_shrinks h₁
      rcases hshr.tables caller with htab | hempty
      · rw [htab, assetAt_remove] at hp
        split at hp
        · cases hp
        · rename_i hne
          have hold := hok pm hpm j pm' ⟨p, _, _, _, _, hp, hshr.kinds hkind⟩ heq'
          exact absurd ⟨rfl, hold⟩ hne
      · rw [hempty] at hp
        cases hp

theorem ties_assetRelease (h : s.Ties) {target asset start stop found : UInt64}
    (hok : s.TieOk (caller, .assetRelease target asset start stop found))
    (hs : s.assetRelease caller target.toNat asset.toNat start.toNat stop.toNat found.toNat =
      some (res, s')) : s'.Ties := by
  unfold TieOk at hok
  unfold assetRelease at hs
  dsimp only at hok
  split at hs
  · rename_i hpath
    rw [if_pos hpath] at hok
    exact ties_memRelease h hok hs
  · rename_i hpath
    rw [if_neg hpath] at hok
    split at hs
    · exact h.returned hs
    · rename_i space hspace
      split at hs
      · exact h.returned hs
      · obtain ⟨s₁, h₁, heq⟩ := Option.map_eq_some_iff.mp hs
        obtain ⟨-, rfl⟩ := Prod.mk.inj heq
        exact h.assetRemove (hok space hspace) h₁

/-- An entry gets a new handle. -/
theorem Ties.move (h : s.Ties) {src dst : SpacePtr} {r : AssetRef} {w : Spaces} {moved : AssetRef}
    (hr : (s.tables src).assets k = some r) (honly : s.OnlyBy src k k)
    (hmapping : ∀ pm, s.Refers src k pm → src = dst)
    (hmove : WingOS.assetMove (some src) (some dst) r s.tables = .ok (moved, w)) :
    ({ s with tables := w } : Kernel).Ties := by
  obtain ⟨w', hmove', -, hat⟩ := assetMove_ok dst hr
  obtain ⟨-, rfl⟩ := Prod.mk.inj (Except.ok.inj (hmove.symm.trans hmove'))
  obtain ⟨b, hb⟩ := Option.ne_none_iff_exists'.mp ((s.tables src).asset_ne hr)
  have hsrc : (s.tables src).assetAt k = some b := AssetTable.assetAt_eq_some.mpr ⟨r, hr, hb⟩
  -- the handle of a mapping that stays in its space still leads to the memory
  have hkeeps : ∀ {sp j pm}, s.Refers sp j pm → ¬ (sp = src ∧ pm.handle = k) →
      (w sp).assetAt pm.handle = pm.asset ∧ pm.asset ≠ none := by
    intro sp j pm hj hne
    obtain ⟨htied, hsome⟩ := h.tied sp j pm hj
    rw [hat, if_neg hne, if_neg]
    · exact ⟨htied, hsome⟩
    · intro ⟨hsp, hh⟩
      rw [hsp, hh, AssetTable.assetAt_of_lt (Nat.lt_succ_self _)] at htied
      exact hsome htied.symm
  refine ⟨?_, ?_, h.kinds, h.older⟩
  · intro sp j pm ⟨p, start, stop, writable, executable, hp, hkind⟩
    change (w sp).assetAt j = some p at hp
    rw [hat] at hp
    split at hp
    · cases hp
    · rename_i hne
      split at hp
      · -- the moved entry is the mapping itself
        rename_i hdst
        rw [hb, Option.some_inj] at hp
        have hrk : s.Refers src k pm := ⟨p, start, stop, writable, executable, hp ▸ hsrc, hkind⟩
        have hsd := hmapping pm hrk
        rw [hdst.1, ← hsd]
        exact hkeeps hrk fun hc => h.handle_ne hrk hc.2
      · have hj : s.Refers sp j pm := ⟨p, start, stop, writable, executable, hp, hkind⟩
        refine hkeeps hj fun hc => hne ⟨hc.1, ?_⟩
        rw [hc.1] at hj
        exact honly j pm hj hc.2
  · intro sp j c hc
    change (w sp).assetAt j = some c at hc
    rw [hat] at hc
    split at hc
    · cases hc
    · split at hc
      · rw [hb] at hc
        exact h.entries (hsrc.trans hc)
      · exact h.entries hc

theorem ties_assetMove (h : s.Ties) {source target asset : UInt64}
    (hok : s.TieOk (caller, .assetMove source target asset)) :
    (s.assetMove caller source.toNat target.toNat asset.toNat).2.Ties := by
  unfold assetMove
  split
  · exact h
  · rename_i src hsrc
    split
    · exact h
    · rename_i dst hdst
      split
      · exact h
      · rename_i r x hx
        split
        · exact h
        · rename_i moved tables hmove
          obtain ⟨honly, hmapping⟩ := hok src dst hsrc hdst
          exact h.move (byHandle_ok hx).1 honly hmapping hmove

/-- **Every call** that is made with care keeps the ties. -/
theorem ties_step (h : s.Ties) {op : SpacePtr × Syscall} (hok : s.TieOk op)
    (hs : s.step op = some s') : s'.Ties := by
  obtain ⟨caller, call⟩ := op
  obtain ⟨⟨res, s₁⟩, hcall, rfl⟩ := Option.map_eq_some_iff.mp hs
  cases call with
  | memOwn target size addr =>
    change s.memOwn caller _ _ _ = _ at hcall
    unfold memOwn at hcall
    split at hcall
    · obtain ⟨-, rfl⟩ := Prod.mk.inj (Option.some.inj hcall)
      exact h
    · exact ties_createMemory h hcall
  | map target start stop physicalMem writable executable => exact ties_map h hcall
  | assetRelease space asset start stop found => exact ties_assetRelease h hok hcall
  | assetMove source target asset =>
    have := ties_assetMove h hok
    rwa [show s.assetMove caller _ _ _ = _ from Option.some.inj hcall] at this

theorem ties_fresh (h : s.Fresh) : s.Ties := by
  have hspace : ∀ {p k}, s.kindAt p = some k → k = .space := by
    intro p k hk
    obtain ⟨n, hn⟩ := kindAt_eq_some.mp hk
    exact h.spaces p _ hn
  refine ⟨?_, ?_, ?_, ?_⟩
  · intro sp j pm ⟨p, start, stop, writable, executable, _, hkind⟩
    cases hspace hkind
  · intro sp j b hb
    exact h.refs.bound b (h.refs.live (.entry sp j) b hb)
  · intro p hp
    exact h.refs.bound p fun hnone => hp (kindAt_eq_none.mpr hnone)
  · intro p start stop pm writable executable hp
    cases hspace hp

/-- What the ties mean for `mem_release`. -/
theorem Ties.releaseExact (h : s.Ties) : s.ReleaseExact := by
  intro caller start stop found pm s₁ hpm hrem
  have hr := mappingAt_refers hpm
  have hne := h.handle_ne hr
  obtain ⟨htied, hsome⟩ := h.tied caller found pm hr
  obtain ⟨p, start', stop', writable, executable, hp, hkind⟩ := hr
  have htables : s₁.tables = Function.update s.tables caller ((s.tables caller).moveOut found) := by
    obtain ⟨r, hr, hrp⟩ := AssetTable.assetAt_eq_some.mp hp
    unfold Kernel.assetRemove at hrem
    rw [hr] at hrem
    dsimp only at hrem
    rw [hrp] at hrem
    have hkind' : (s.setTable caller ((s.tables caller).moveOut found)).kindAt p =
        some (.mapping start' stop' pm writable executable) := hkind
    refine tables_derefMapping hkind' (fun m k hm hk => ?_) hrem
    obtain ⟨m', hm', -, hmem⟩ := h.older hkind
    rw [hm, Option.some_inj] at hm'
    exact hmem k (hm' ▸ hk)
  have hassets : ∀ space k, (s₁.tables space).assets k =
      if space = caller ∧ k = found then none else (s.tables space).assets k := by
    intro space k
    rw [htables, Function.update_apply]
    by_cases hsp : space = caller
    · rw [if_pos hsp, hsp]
      change Function.update (s.tables caller).assets found none k = _
      rw [Function.update_apply]
      by_cases hk : k = found
      · rw [if_pos hk, if_pos ⟨rfl, hk⟩]
      · rw [if_neg hk, if_neg fun hc => hk hc.2]
    · rw [if_neg hsp, if_neg fun hc => hsp hc.1]
  refine ⟨?_, hsome, hassets⟩
  unfold AssetTable.assetAt at htied ⊢
  rw [hassets, if_neg fun hc => hne hc.2]
  exact htied

/-- **Mappings find their memory**, in runs whose calls are made with care, and
then a release by address drops the two and nothing else. -/
theorem mappings_tied (s s' : Kernel) (ops : List (SpacePtr × Syscall)) (hfresh : s.Fresh)
    (hok : Lib.Meets Kernel.step Kernel.TieOk ops s) (hrun : Lib.run Kernel.step ops s = some s') :
    s'.Tied ∧ s'.ReleaseExact := by
  have h : s'.Ties := Lib.run_invariant_of_meets (P := Ties)
    (fun _ _ _ h hC hs => ties_step h hC hs) ops hok (ties_fresh hfresh) hrun
  exact ⟨h.tied, h.releaseExact⟩

end Ties

/-- The memory of the mapping gets another handle. -/
def ownMapMove : List (SpacePtr × Syscall) := ownAndMap ++ [(0, .assetMove 0 0 1)]

/-- The asset under handle 2, and the asset its memory handle leads to. -/
def memoryOfTwo (s : Kernel) : Option (Option AssetPtr × Option AssetPtr) :=
  ((s.tables 0).assetAt 2).bind fun p =>
    (s.kindAt p).bind fun
      | .mapping _ _ pm _ _ => some (pm.asset, (s.tables 0).assetAt pm.handle)
      | _ => none

/-- The handle in the mapping leads nowhere. -/
theorem handle_lost :
    ¬ ∀ (s s' : Kernel) (ops : List (SpacePtr × Syscall)), s.Fresh →
      Lib.run Kernel.step ops s = some s' → s'.Tied ∧ s'.ReleaseExact := by
  intro h
  have hlost : (Lib.run Kernel.step ownMapMove oneSpace).bind memoryOfTwo = some (some 1, none) := by
    decide +kernel
  obtain ⟨s', hrun, hs'⟩ := Option.bind_eq_some_iff.mp hlost
  obtain ⟨p, hp, hs'⟩ := Option.bind_eq_some_iff.mp hs'
  obtain ⟨kind, hkind, hs'⟩ := Option.bind_eq_some_iff.mp hs'
  cases kind with
  | memory size addr allocated => cases hs'
  | space => cases hs'
  | mapping start stop pm writable executable =>
    obtain ⟨hasset, hat⟩ := Prod.mk.inj (Option.some.inj hs')
    have htied := (h oneSpace s' ownMapMove fresh_oneSpace hrun).1 0 2 pm
      ⟨p, start, stop, writable, executable, hp, hkind⟩
    rw [hat, hasset] at htied
    cases htied.1

theorem mappings_tied_owned :
    ∃ s', Lib.run Kernel.step ownAndMap oneSpace = some s' ∧ s'.Tied ∧ s'.ReleaseExact := by
  have hsome : (Lib.run Kernel.step ownAndMap oneSpace).isSome = true := by decide +kernel
  obtain ⟨s', hrun⟩ := Option.isSome_iff_exists.mp hsome
  exact ⟨s', hrun, mappings_tied oneSpace s' ownAndMap fresh_oneSpace
    ⟨trivial, fun _ _ => ⟨trivial, fun _ _ => trivial⟩⟩ hrun⟩

end Kernel
end WingOS
