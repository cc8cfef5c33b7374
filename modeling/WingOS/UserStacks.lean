/-
# The stacks of the user tasks

`Space::create_task` (`kernel/generic/asset.cpp`) with `Task::_initialize`
(`task.cpp`), `CpuContext::prepare` (`x86_64/context.cpp`) and `malloc`
(`walloc/liballoc.cpp`). `malloc` takes whole pages and puts a header of 32
bytes at their start. The stack of a task comes after the header, and is mapped
at a fixed address of the space of the task; `map` looks at the number of a page
only, so the header is mapped with it.

The start of the window is the start of a page, and the start of the stack is
not. So no task has its own stack in the window, and every creation that gets
through is one too many (`own_stacks_iff`).

Key definitions: `malloc`, `prepare`, `Stacks.initializeTask`, `Stacks.createTask`,
`OwnStack`.
Key theorem: `own_stacks_iff`.
-/
import WingOS.AssetTable
import WingOS.PageTable
import WingOS.PmmSafe

namespace WingOS

/-! ### The heap -/

/-- `toVirt`. -/
def toVirt (addr : ℕ) : ℕ := (addr + mmapIoBase) % 2 ^ 64

/-- `toPhys`. -/
def toPhys (addr : ℕ) : ℕ := (addr + 2 ^ 64 - mmapIoBase) % 2 ^ 64

/-- `sizeof(WingosAllocNode)`. -/
def sizeofAllocNode : ℕ := 32

/-- `malloc`; a result of `none` is an allocation that fails, and reaches
`unreachable$` in `liballoc_alloc`. -/
def malloc (len : ℕ) (p : Pmm) : Option (ℕ × Pmm) :=
  match p.allocate (alignUp (len + sizeofAllocNode) 4096 / 4096) false with
  | (.error _, _) => none
  | (.ok addr, p) => some ((toVirt addr + sizeofAllocNode) % 2 ^ 64, p)

/-- `fc::mem_alloc`. -/
def memAlloc (bytes : ℕ) (p : Pmm) : Option (Except String ℕ × Pmm) :=
  (malloc bytes p).map fun (v, p) =>
    (if v = 0 then .error "unable to allocate memory" else .ok v, p)

/-- Objects of the kernel, one after the other. -/
def mallocAll : List ℕ → Pmm → Option Pmm
  | [], p => some p
  | len :: lens, p => (malloc len p).bind fun (_, p) => mallocAll lens p

/-! ### Tasks -/

def userspaceStackBase : ℕ := 0xcc0000000

def userspaceStackSize : ℕ := 16384 * 2

def kernelStackSize : ℕ := 16384 * 2

/-- `CpuContext`, the stacks of it; `rsp` is the field of the frame. -/
structure CpuContext where
  stackPtr : ℕ
  kernelStackPtr : ℕ
  syscallStackPtr : ℕ
  stackTop : ℕ
  kernelStackTop : ℕ
  syscallStackTop : ℕ
  rsp : ℕ
  simdData : ℕ

/-- `SimdContext::create`, with the size that the processor tells. -/
def simdContext (dataSize : ℕ) (p : Pmm) : Except String ℕ × Pmm :=
  match p.allocate (alignUp dataSize 4096 / 4096) false with
  | (.error e, p) => (.error e, p)
  | (.ok addr, p) =>
    (if toVirt addr = 0 then .error "failed to allocate simd context" else .ok (toVirt addr), p)

/-- `CpuContext::prepare`. -/
def prepare (simdSize : ℕ) (p : Pmm) : Option (Except String CpuContext × Pmm) :=
  (memAlloc userspaceStackSize p).bind fun
  | (.error e, p) => some (.error e, p)
  | (.ok stack, p) => (memAlloc kernelStackSize p).bind fun
    | (.error e, p) => some (.error e, p)
    | (.ok kernelStack, p) => (memAlloc kernelStackSize p).bind fun
      | (.error e, p) => some (.error e, p)
      | (.ok syscallStack, p) =>
        match simdContext simdSize p with
        | (.error e, p) => some (.error e, p)
        | (.ok simdData, p) =>
          some (.ok {
            stackPtr := stack
            kernelStackPtr := kernelStack
            syscallStackPtr := syscallStack
            stackTop := (stack + userspaceStackSize) % 2 ^ 64
            kernelStackTop := (kernelStack + kernelStackSize) % 2 ^ 64
            syscallStackTop := (syscallStack + kernelStackSize - 16) % 2 ^ 64
            rsp := (stack + userspaceStackSize) % 2 ^ 64
            simdData }, p)

/-- A task, with the space it was made in. -/
structure StackTask where
  uid : ℕ
  space : SpacePtr
  user : Bool
  context : CpuContext

/-- The memory, the roots of the page tables of the spaces, and the tasks. -/
structure Stacks where
  vm : Vmm
  root : SpacePtr → ℕ
  tasks : List StackTask
  nextUid : ℕ

/-- The parameters of `create_task`; `objects` are the sizes of the objects that
are made for the task before its stacks, the task itself and its context, and
`simdSize` is what the processor needs for its registers. -/
structure TaskCreate where
  space : SpacePtr
  user : Bool
  objects : List ℕ
  simdSize : ℕ

/-- The window of the stack in a space. -/
def stackWindow : Range where
  start := userspaceStackBase - userspaceStackSize
  stop := userspaceStackBase
  start_lt := by decide
  stop_lt := by decide

/-- The physical memory of a stack. -/
def CpuContext.stackRange (c : CpuContext) : Range where
  start := toPhys c.stackPtr
  stop := toPhys c.stackTop
  start_lt := Nat.mod_lt _ (by decide)
  stop_lt := Nat.mod_lt _ (by decide)

/-- The stack is mapped into the window. -/
def Vmm.mapStack (vm : Vmm) (root : ℕ) (context : CpuContext) : Except String Unit × Vmm :=
  vm.map root stackWindow context.stackRange { writeable := true, user := true }

namespace Stacks

/-- `Task::_initialize`. What `map` returns is not looked at. -/
def initializeTask (s : Stacks) (op : TaskCreate) (p : Pmm) :
    Option (Except String CpuContext × Vmm) :=
  match prepare op.simdSize p with
  | none => none
  | some (.error e, p) => some (.error e, { s.vm with pmm := p })
  | some (.ok context, p) =>
    let vm := { s.vm with pmm := p }
    if op.user then
      some (.ok { context with rsp := userspaceStackBase }, (vm.mapStack (s.root op.space) context).2)
    else some (.ok context, vm)

/-- `Space::create_task`. A task that cannot be initialised leaves the table,
and keeps its memory. -/
def createTask (s : Stacks) (op : TaskCreate) : Option (Except String StackTask × Stacks) :=
  match mallocAll op.objects s.vm.pmm with
  | none => none
  | some p =>
    match s.initializeTask op p with
    | none => none
    | some (.error _, vm) =>
      some (.error "unable to initialize task asset", { s with vm, nextUid := s.nextUid + 1 })
    | some (.ok context, vm) =>
      let task : StackTask := { uid := s.nextUid, space := op.space, user := op.user, context }
      some (.ok task, { s with vm, tasks := task :: s.tasks, nextUid := s.nextUid + 1 })

def step (s : Stacks) (op : TaskCreate) : Option Stacks := (s.createTask op).map Prod.snd

end Stacks

/-! ### What a stack should be -/

/-- What an address of the window is translated to, in the space of a task. -/
def Stacks.translate (s : Stacks) (t : StackTask) (k : ℕ) : Except String ℕ :=
  physicalAddr s.vm.frames (stackWindow.start + k) 4 (s.root t.space)

/-- **A task has its own stack, and nothing more.** -/
structure OwnStack (s : Stacks) (t : StackTask) : Prop where
  /-- The window is the allocation, byte for byte. -/
  translates : ∀ k < userspaceStackSize, s.translate t k = .ok (toPhys t.context.stackPtr + k)
  /-- No other task of the space has a byte of it. -/
  alone : ∀ t' ∈ s.tasks, t'.user = true → t'.uid ≠ t.uid → t'.space = t.space →
    ∀ k < userspaceStackSize, ∀ k' < userspaceStackSize, ∀ x,
      s.translate t k = .ok x → s.translate t' k' ≠ .ok x
  /-- The pages of the window have no byte outside of the allocation. -/
  inside : ∀ k < userspaceStackSize, ∀ x, s.translate t k = .ok x →
    ∀ b, b / 4096 = x / 4096 → toPhys t.context.stackPtr ≤ b ∧ b < toPhys t.context.stackTop

def OwnStacks (s : Stacks) : Prop := ∀ t ∈ s.tasks, t.user = true → OwnStack s t

/-- The creation is not for a user, or there is not the memory for it. -/
def NoUserStack (s : Stacks) (op : TaskCreate) : Prop :=
  op.user = true → ∀ p, mallocAll op.objects s.vm.pmm = some p →
    ∀ context p', prepare op.simdSize p ≠ some (.ok context, p')

/-- The allocator is one that `Pmm::create` has made, in any state, and there is
no user task yet. -/
structure StacksStart (s : Stacks) : Prop where
  created : ∃ context m p, SectionsDisjoint context ∧ Pmm.create context m = .ok p ∧ p.Same s.vm.pmm
  tasks : ∀ t ∈ s.tasks, t.user = false

/-! ### Pages and headers -/

/-- The sections of the allocator start at pages. -/
structure PagesAligned (p : Pmm) : Prop where
  layout : Layout p.windows
  aligned : ∀ w ∈ p.windows, w.range.start % 4096 = 0

section Alignment

variable {p p' : Pmm}

theorem PagesAligned.same (h : PagesAligned p) (hsame : p.Same p') : PagesAligned p' := by
  constructor
  · rw [hsame.1]
    exact h.layout
  · rw [hsame.1]
    exact h.aligned

/-- Pages that are handed out start at a page. -/
theorem PagesAligned.allocate (h : PagesAligned p) {count a : ℕ} {lower : Bool}
    (ha : p.allocate count lower = (.ok a, p')) : PagesAligned p' ∧ a % 4096 = 0 := by
  obtain ⟨hsame, w, hw, i, hrun, -, -⟩ := Pmm.allocate_ok h.layout ha
  have hstart := h.aligned w hw
  have haddr := hrun.addr_eq
  unfold Window.page at haddr
  exact ⟨h.same hsame, by omega⟩

theorem toVirt_mod (addr : ℕ) : toVirt addr % 4096 = addr % 4096 := by
  unfold toVirt mmapIoBase
  omega

theorem toPhys_mod (addr : ℕ) : toPhys addr % 4096 = addr % 4096 := by
  unfold toPhys mmapIoBase
  omega

/-- Memory of `malloc` comes 32 bytes after the start of a page. -/
theorem malloc_spec (h : PagesAligned p) {len v : ℕ} (hm : malloc len p = some (v, p')) :
    PagesAligned p' ∧ v % 4096 = 32 := by
  unfold malloc at hm
  split at hm
  · cases hm
  · rename_i a q ha
    obtain ⟨hq, haligned⟩ := h.allocate ha
    simp only [Option.some.injEq, Prod.mk.injEq] at hm
    obtain ⟨hv, rfl⟩ := hm
    have hvirt := toVirt_mod a
    unfold sizeofAllocNode at hv
    exact ⟨hq, by omega⟩

theorem memAlloc_spec (h : PagesAligned p) {bytes : ℕ} {res : Except String ℕ}
    (hm : memAlloc bytes p = some (res, p')) : PagesAligned p' ∧ ∀ v, res = .ok v → v % 4096 = 32 := by
  unfold memAlloc at hm
  obtain ⟨⟨v, q⟩, hv, hres⟩ := Option.map_eq_some_iff.mp hm
  obtain ⟨hq, hmod⟩ := malloc_spec h hv
  simp only [Prod.mk.injEq] at hres
  obtain ⟨rfl, rfl⟩ := hres
  refine ⟨hq, fun v' hv' => ?_⟩
  split at hv'
  · cases hv'
  · cases hv'
    exact hmod

theorem mallocAll_spec : ∀ {lens : List ℕ} {p p' : Pmm}, PagesAligned p → mallocAll lens p = some p' →
    PagesAligned p'
  | [], p, p', h, hm => by
    rw [mallocAll, Option.some.injEq] at hm
    exact hm ▸ h
  | len :: lens, p, p', h, hm => by
    rw [mallocAll, Option.bind_eq_some_iff] at hm
    obtain ⟨⟨v, q⟩, hv, hrest⟩ := hm
    exact mallocAll_spec (malloc_spec h hv).1 hrest

theorem simdContext_spec (h : PagesAligned p) {size : ℕ} {res : Except String ℕ}
    (hs : simdContext size p = (res, p')) : PagesAligned p' := by
  unfold simdContext at hs
  split at hs
  · rename_i ha
    rw [Prod.mk.injEq] at hs
    exact hs.2 ▸ h.same (Pmm.allocate_error ha).1
  · rename_i ha
    rw [Prod.mk.injEq] at hs
    exact hs.2 ▸ (h.allocate ha).1

/-- **`prepare`**: the stack comes after a header. -/
theorem prepare_spec (h : PagesAligned p) {simdSize : ℕ} {res : Except String CpuContext}
    (hp : prepare simdSize p = some (res, p')) :
    PagesAligned p' ∧ ∀ context, res = .ok context → context.stackPtr % 4096 = 32 := by
  unfold prepare at hp
  obtain ⟨⟨stack, p₁⟩, h₁, hp⟩ := Option.bind_eq_some_iff.mp hp
  obtain ⟨hp₁, hstack⟩ := memAlloc_spec h h₁
  cases stack with
  | error e =>
    cases hp
    exact ⟨hp₁, nofun⟩
  | ok stack =>
    obtain ⟨⟨kernelStack, p₂⟩, h₂, hp⟩ := Option.bind_eq_some_iff.mp hp
    have hp₂ := (memAlloc_spec hp₁ h₂).1
    cases kernelStack with
    | error e =>
      cases hp
      exact ⟨hp₂, nofun⟩
    | ok kernelStack =>
      obtain ⟨⟨syscallStack, p₃⟩, h₃, hp⟩ := Option.bind_eq_some_iff.mp hp
      have hp₃ := (memAlloc_spec hp₂ h₃).1
      cases syscallStack with
      | error e =>
        cases hp
        exact ⟨hp₃, nofun⟩
      | ok syscallStack =>
        dsimp only at hp
        split at hp
        · rename_i h₄
          cases hp
          exact ⟨simdContext_spec hp₃ h₄, nofun⟩
        · rename_i h₄
          cases hp
          refine ⟨simdContext_spec hp₃ h₄, fun context hcontext => ?_⟩
          cases hcontext
          exact hstack stack rfl

end Alignment

/-! ### Mapping keeps the sections -/

theorem aligned_mapPage {vaddr : ℕ} {page : Page} : ∀ {level t : ℕ} {v : Vmm}, PagesAligned v.pmm →
    PagesAligned (Vmm.mapPage vaddr page level t v).2.pmm
  | 0, _, _, h => h
  | 1, _, _, h => h
  | level + 2, t, v, h => by
    unfold Vmm.mapPage
    dsimp only
    split
    · split
      · rename_i ha
        exact h.same (Pmm.allocate_error ha).1
      · rename_i ha
        apply aligned_mapPage
        exact (h.allocate ha).1
    · apply aligned_mapPage
      exact h

theorem aligned_mapPages {root virtBegin physBegin : ℕ} {flags : PageFlags} : ∀ {n k : ℕ} {v : Vmm},
    PagesAligned v.pmm → PagesAligned (v.mapPages root virtBegin physBegin flags n k).2.pmm
  | 0, _, _, h => h
  | n + 1, k, v, h => by
    have hpage := @aligned_mapPage ((virtBegin + 4096 * k) % 2 ^ 64)
      (pageCreate flags ((physBegin + 4096 * k) % 2 ^ 64)) 4 root v h
    unfold Vmm.mapPages
    split
    · rename_i hmap
      rw [hmap] at hpage
      exact hpage
    · rename_i hmap
      rw [hmap] at hpage
      exact aligned_mapPages hpage

theorem aligned_map {root : ℕ} {virt phys : Range} {flags : PageFlags} {v : Vmm}
    {r : Except String Unit × Vmm} (h : PagesAligned v.pmm) (hr : r = v.map root virt phys flags) :
    PagesAligned r.2.pmm := by
  rw [hr]
  unfold Vmm.map
  split
  · exact h
  · split
    · exact h
    · exact aligned_mapPages h

theorem aligned_mapStack {root : ℕ} {context : CpuContext} {v : Vmm} (h : PagesAligned v.pmm) :
    PagesAligned (v.mapStack root context).2.pmm := aligned_map h rfl

/-! ### Creations -/

section Creations

variable {s s' : Stacks} {op : TaskCreate} {t : StackTask}

/-- The task that a creation makes. -/
def Stacks.newTask (s : Stacks) (op : TaskCreate) (context : CpuContext) : StackTask where
  uid := s.nextUid
  space := op.space
  user := op.user
  context := if op.user then { context with rsp := userspaceStackBase } else context

theorem initializeTask_cases {p : Pmm} {res : Except String CpuContext} {vm : Vmm}
    (h : s.initializeTask op p = some (res, vm)) :
    (∃ e p', prepare op.simdSize p = some (.error e, p') ∧ res = .error e ∧ vm.pmm = p') ∨
    ∃ context p', prepare op.simdSize p = some (.ok context, p') ∧
      res = .ok (s.newTask op context).context ∧
      vm = if op.user then ({ s.vm with pmm := p' }.mapStack (s.root op.space) context).2
        else { s.vm with pmm := p' } := by
  unfold Stacks.initializeTask at h
  split at h
  · cases h
  · rename_i e p' hprepare
    simp only [Option.some.injEq, Prod.mk.injEq] at h
    exact .inl ⟨e, p', hprepare, h.1.symm, by rw [← h.2]⟩
  · rename_i context p' hprepare
    refine .inr ⟨context, p', hprepare, ?_⟩
    unfold Stacks.newTask
    dsimp only at h ⊢
    split at h
    · rename_i huser
      simp only [Option.some.injEq, Prod.mk.injEq] at h
      rw [if_pos huser, if_pos huser]
      exact ⟨h.1.symm, h.2.symm⟩
    · rename_i huser
      simp only [Option.some.injEq, Prod.mk.injEq] at h
      rw [if_neg huser, if_neg huser]
      exact ⟨h.1.symm, h.2.symm⟩

/-- A creation fails and keeps the memory, or it makes a task. -/
theorem step_cases (h : s.step op = some s') : ∃ p, mallocAll op.objects s.vm.pmm = some p ∧
    ((∃ e p', prepare op.simdSize p = some (.error e, p') ∧ s'.vm.pmm = p' ∧ s'.tasks = s.tasks) ∨
    ∃ context p', prepare op.simdSize p = some (.ok context, p') ∧
      s'.tasks = s.newTask op context :: s.tasks ∧
      s'.vm = if op.user then ({ s.vm with pmm := p' }.mapStack (s.root op.space) context).2
        else { s.vm with pmm := p' }) := by
  unfold Stacks.step Stacks.createTask at h
  obtain ⟨⟨res, s₁⟩, hcreate, rfl⟩ := Option.map_eq_some_iff.mp h
  split at hcreate
  · cases hcreate
  · rename_i p hobjects
    refine ⟨p, hobjects, ?_⟩
    split at hcreate
    · cases hcreate
    · rename_i e vm hinit
      obtain ⟨e', p', hprepare, -, hpmm⟩ | ⟨context, p', -, hres, -⟩ := initializeTask_cases hinit
      · cases hcreate
        exact .inl ⟨e', p', hprepare, hpmm, rfl⟩
      · cases hres
    · rename_i context vm hinit
      obtain ⟨e', p', -, hres, -⟩ | ⟨context', p', hprepare, hres, hvm⟩ := initializeTask_cases hinit
      · cases hres
      · rw [Except.ok.injEq] at hres
        rw [Option.some.injEq, Prod.mk.injEq] at hcreate
        rw [← hcreate.2]
        refine .inr ⟨context', p', hprepare, ?_, hvm⟩
        rw [hres]
        rfl

/-- The stacks of the user tasks come after headers. -/
structure Stacks.Inv (s : Stacks) : Prop where
  pages : PagesAligned s.vm.pmm
  headed : ∀ t ∈ s.tasks, t.user = true → t.context.stackPtr % 4096 = 32

/-- There is a user task. -/
def Stacks.HasUser (s : Stacks) : Prop := ∃ t ∈ s.tasks, t.user = true

theorem inv_stacksStart (h : StacksStart s) : s.Inv := by
  obtain ⟨context, m, p, hsections, hcreate, hsame⟩ := h.created
  have hwindows : s.vm.pmm.windows = Pmm.windowsOf _ _ := hsame.1.trans (Pmm.created hcreate).windows
  refine ⟨⟨?_, ?_⟩, fun t ht huser => ?_⟩
  · rw [hwindows]
    exact Pmm.layout_windowsOf hsections _
  · rw [hwindows]
    exact fun w hw => Pmm.windowsOf_aligned hw
  · rw [h.tasks t ht] at huser
    cases huser

/-- **One creation.** A user task is there afterwards if there was one, or if
the creation has made it. -/
theorem inv_createTask (h : s.Inv) (hs : s.step op = some s') :
    s'.Inv ∧ (s'.HasUser ↔ s.HasUser ∨ ¬ NoUserStack s op) := by
  obtain ⟨p, hobjects, hcases⟩ := step_cases hs
  have hp := mallocAll_spec h.pages hobjects
  obtain ⟨e, p', hprepare, hpmm, htasks⟩ | ⟨context, p', hprepare, htasks, hvm⟩ := hcases
  · have hno : NoUserStack s op := by
      intro _ q hq context' q' hok
      rw [hobjects, Option.some.injEq] at hq
      rw [← hq, hprepare] at hok
      cases hok
    refine ⟨⟨hpmm ▸ (prepare_spec hp hprepare).1, htasks ▸ h.headed⟩, ?_⟩
    unfold Stacks.HasUser
    rw [htasks]
    exact ⟨.inl, fun h => h.elim id fun hc => absurd hno hc⟩
  · obtain ⟨hp', hstack⟩ := prepare_spec hp hprepare
    refine ⟨⟨?_, ?_⟩, ?_⟩
    · rw [hvm]
      split
      · exact aligned_mapStack hp'
      · exact hp'
    · intro t ht huser
      rw [htasks] at ht
      rcases List.mem_cons.mp ht with rfl | ht
      · have hptr : (s.newTask op context).context.stackPtr = context.stackPtr := by
          unfold Stacks.newTask
          dsimp only
          split <;> rfl
        rw [hptr]
        exact hstack context rfl
      · exact h.headed t ht huser
    · have hyes : ¬ NoUserStack s op ↔ op.user = true := by
        constructor
        · intro hc
          by_contra huser
          exact hc fun h => absurd h huser
        · intro huser hno
          exact hno huser p hobjects context p' hprepare
      unfold Stacks.HasUser
      rw [htasks, hyes, or_comm]
      exact List.exists_mem_cons_iff (fun t : StackTask => t.user = true) _ _

/-- A translation keeps the place in the page. -/
theorem physicalAddr_mod (frames : Frames) (vaddr : ℕ) {x : ℕ} : ∀ {level t : ℕ},
    (level = 0 → t % 4096 = 0) → physicalAddr frames vaddr level t = .ok x → x % 4096 = vaddr % 4096
  | 0, t, ht, h => by
    have ht := ht rfl
    unfold physicalAddr at h
    rw [Except.ok.injEq] at h
    omega
  | level + 1, t, ht, h => by
    unfold physicalAddr at h
    dsimp only at h
    split at h
    · cases h
    · split at h
      · cases h
      · split at h
        · cases h
        · exact physicalAddr_mod frames vaddr (fun _ => Nat.mul_mod_left _ _) h

/-- The window starts at a page, and the stack does not. -/
theorem not_ownStack (h : s.Inv) (ht : t ∈ s.tasks) (huser : t.user = true) : ¬ OwnStack s t := by
  intro hown
  have hfirst := hown.translates 0 (by decide)
  unfold Stacks.translate at hfirst
  have hmod := physicalAddr_mod _ _ (fun h => absurd h (Nat.succ_ne_zero 3)) hfirst
  have hstack := toPhys_mod t.context.stackPtr
  have hheaded := h.headed t ht huser
  have hwindow : (stackWindow.start + 0) % 4096 = 0 := by decide
  omega

theorem ownStacks_iff (h : s.Inv) : OwnStacks s ↔ ¬ s.HasUser := by
  constructor
  · intro hown ⟨t, ht, huser⟩
    exact not_ownStack h ht huser (hown t ht huser)
  · intro hnone t ht huser
    exact absurd ⟨t, ht, huser⟩ hnone

/-- **Every task with its own stack.** After a run of creations, in any number
of spaces, each user task has its own stack if and only if no user task was made. -/
theorem own_stacks_iff (ops : List TaskCreate) (s s' : Stacks) (hstart : StacksStart s)
    (hrun : Lib.run Stacks.step ops s = some s') :
    OwnStacks s' ↔ Lib.Meets Stacks.step NoUserStack ops s := by
  have hnone : ¬ s.HasUser := by
    intro ⟨t, ht, huser⟩
    rw [hstart.tasks t ht] at huser
    cases huser
  obtain ⟨hinv, hmark⟩ := Lib.marked_iff_not_meets (fun _ _ _ h hs => inv_createTask h hs) ops
    (inv_stacksStart hstart) hrun
  rw [ownStacks_iff hinv, hmark, or_iff_right hnone, not_not]

end Creations

/-! ### One task -/

/-- 256 KiB of memory at 1 MiB. -/
def stackMap : MachineContext where
  memoryMap := [{ range := Range.fromBeginLen 0x100000 0x40000, type := .free }]
  count_le := by decide

def stackPmm : Pmm :=
  match Pmm.create stackMap fun _ => 0 with
  | .ok p => p
  | .error _ => ⟨Range.fromBeginLen 0 0, [], 0, fun _ => 0⟩

/-- A space with empty page tables at 2 MiB, and no task. -/
def noTasks : Stacks where
  vm := { pmm := stackPmm, frames := fun _ _ => {} }
  root := fun _ => 0x200000
  tasks := []
  nextUid := 1

/-- A task for a user, or for the kernel. -/
def oneTask (user : Bool) : TaskCreate where
  space := 0
  user
  objects := [256, 400]
  simdSize := 512

theorem stacksStart_noTasks : StacksStart noTasks := by
  have hpmm : noTasks.vm.pmm = stackPmm := by simp only [noTasks]
  have hsections : SectionsDisjoint stackMap := ⟨by decide +kernel, by decide +kernel⟩
  have hcreate : Pmm.create stackMap (fun _ => 0) = .ok stackPmm := rfl
  refine ⟨⟨_, _, _, hsections, hcreate, ?_⟩, fun t ht => ?_⟩
  · rw [hpmm]
    exact Pmm.Same.refl stackPmm
  · cases ht

theorem own_stacks_kernel :
    ∃ s', Lib.run Stacks.step [oneTask false] noTasks = some s' ∧ OwnStacks s' := by
  have hsome : (Lib.run Stacks.step [oneTask false] noTasks).isSome = true := by decide +kernel
  obtain ⟨s', hrun⟩ := Option.isSome_iff_exists.mp hsome
  refine ⟨s', hrun, (own_stacks_iff [oneTask false] noTasks s' stacksStart_noTasks hrun).mpr ⟨?_, ?_⟩⟩
  · intro huser
    cases huser
  · exact fun _ _ => trivial

/-- The first byte of the window is the first byte of the header. -/
theorem header_in_window : StacksStart noTasks ∧
    ∃ s', Lib.run Stacks.step [oneTask true] noTasks = some s' ∧ ¬ OwnStacks s' := by
  have hwindow : (Lib.run Stacks.step [oneTask true] noTasks).map (fun s' => s'.tasks.map fun t =>
      (t.user, (s'.translate t 0).toOption, toPhys t.context.stackPtr)) =
        some [(true, some 0x10a000, 0x10a020)] := by decide +kernel
  obtain ⟨s', hrun, htasks⟩ := Option.map_eq_some_iff.mp hwindow
  refine ⟨stacksStart_noTasks, s', hrun, fun hown => ?_⟩
  cases hs : s'.tasks with
  | nil =>
    rw [hs] at htasks
    cases htasks
  | cons t ts =>
    rw [hs, List.map_cons, List.cons.injEq, Prod.mk.injEq, Prod.mk.injEq] at htasks
    obtain ⟨⟨huser, hheader, hstack⟩, -⟩ := htasks
    have hfirst := (hown t (hs ▸ List.mem_cons_self) huser).translates 0 (by decide)
    rw [hfirst, hstack] at hheader
    cases hheader

end WingOS
