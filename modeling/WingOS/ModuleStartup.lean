/-
# Module startup

`init` keeps the modules of its configuration in a queue and starts each of them
when the services it depends on have announced themselves
(`app/init/module_startup.cpp`). A pass walks the queue until a module starts and
takes it out; a cycle makes passes until one starts nothing; each announcement of
a service runs a cycle.

`start_service` loads and runs a program. Here it is `starts`, which says for each
call if it succeeds, by what was called before. Every call is kept in a list, with
the services that were started then and the answer.

Every cycle ends, each module of the configuration is started once or still
queued, and it was started with its dependencies there. What stays in the queue
lacks one of the services that have announced themselves, or failed in the last
pass. If no start fails, the modules that are started are those whose
dependencies have announced themselves, in whatever order that happened
(`startup_complete`).

Key definitions: `cycleOne`, `cycle`, `serviceStartupCallback`, `after`, `Inv`, `Complete`.
Key theorems: `cycleOneFrom_spec`, `cycle_ends`, `between_after`, `launched_perm`, `startup_complete`.
-/
import Mathlib.Data.List.Perm.Basic
import Mathlib.Logic.Function.Iterate
import Mathlib.Tactic.Common

namespace WingOS
namespace ModuleStartup

/-- The characters of a `fc::Str`. -/
abbrev Str := List UInt8

structure ModuleLaunch where
  name : Str
  deps : List Str
  deriving DecidableEq

/-- A call of `start_service`, with the services that were started then. -/
structure Attempt where
  mod : ModuleLaunch
  services : List Str
  ok : Bool
  deriving DecidableEq

/-- The static variables, the calls of `start_service` so far, and those of the
last pass, newest first. -/
structure Startup where
  moduleToLaunch : List ModuleLaunch := []
  startedModules : List Str := []
  startedServices : List Str := []
  gmcx : Bool := false
  attempts : List Attempt := []
  pass : List Attempt := []

namespace Startup

/-- `can_start`. -/
def canStart (s : Startup) (mod : ModuleLaunch) : Bool := mod.deps.all fun d => s.startedServices.contains d

/-- `start_service` was called, as the list says. -/
def tried (s : Startup) (new : List Attempt) : Startup :=
  { s with attempts := new ++ s.attempts, pass := new ++ s.pass }

/-- The modules that were started. -/
def launched (s : Startup) : List ModuleLaunch := (s.attempts.filter Attempt.ok).map Attempt.mod

theorem tried_tried (s : Startup) (new new' : List Attempt) :
    (s.tried new).tried new' = s.tried (new' ++ new) := by
  unfold tried
  rw [List.append_assoc, List.append_assoc]

end Startup

section Cycle

variable (starts : List Attempt → Str → Bool)

/-- The loop of `try_startup_modules_cycle_one` from `i` on, where `rest` is
what it has not come to. -/
def cycleOneFrom : (i : ℕ) → (rest : List ModuleLaunch) → Startup → Bool × Startup
  | _, [], s => (false, s)
  | i, mod :: rest, s =>
    if s.canStart mod then
      let ok := starts s.attempts mod.name
      let s := s.tried [⟨mod, s.startedServices, ok⟩]
      if ok then
        (true, { s with
          startedModules := s.startedModules ++ [mod.name]
          moduleToLaunch := s.moduleToLaunch.eraseIdx i })
      -- it stays in the queue, for when another service appears
      else cycleOneFrom (i + 1) rest s
    else cycleOneFrom (i + 1) rest s

/-- `try_startup_modules_cycle_one`. -/
def cycleOne (s : Startup) : Bool × Startup := cycleOneFrom starts 0 s.moduleToLaunch { s with pass := [] }

/-- A call that failed, of a module that could start. -/
structure InVain (s : Startup) (a : Attempt) : Prop where
  ok : a.ok = false
  services : a.services = s.startedServices
  canStart : s.canStart a.mod = true

/-- A pass over `rest` that starts nothing: what it tried failed. -/
structure StartsNone (s : Startup) (rest : List ModuleLaunch) (s' : Startup) (new : List Attempt) : Prop where
  eq : s' = s.tried new
  failed : ∀ a ∈ new, InVain s a
  left : ∀ m ∈ rest, s.canStart m = false ∨ ∃ a ∈ new, a.mod = m

/-- A pass over `rest` that starts `mod`, behind `before` and `skipped`. -/
structure StartsOne (s : Startup) (before rest : List ModuleLaunch) (s' : Startup) (new : List Attempt)
    (skipped : List ModuleLaunch) (mod : ModuleLaunch) (behind : List ModuleLaunch) : Prop where
  rest_eq : rest = skipped ++ mod :: behind
  canStart : s.canStart mod = true
  eq : s' = { s.tried (⟨mod, s.startedServices, true⟩ :: new) with
    startedModules := s.startedModules ++ [mod.name]
    moduleToLaunch := before ++ skipped ++ behind }
  failed : ∀ a ∈ new, InVain s a

/-- What a pass does from `rest` on. -/
def Passes (s : Startup) (before rest : List ModuleLaunch) (r : Bool × Startup) : Prop :=
  (r.1 = false ∧ ∃ new, StartsNone s rest r.2 new) ∨
    (r.1 = true ∧ ∃ new skipped mod behind, StartsOne s before rest r.2 new skipped mod behind)

variable {starts}

/-- The pass has come past `mod`, with the calls `tried`, all in vain. -/
theorem Passes.cons {s : Startup} {before rest : List ModuleLaunch} {mod : ModuleLaunch} {r : Bool × Startup}
    (tried : List Attempt)
    (htried : ∀ a ∈ tried, InVain s a)
    (hmod : s.canStart mod = false ∨ ∃ a ∈ tried, a.mod = mod)
    (h : Passes (s.tried tried) (before ++ [mod]) rest r) : Passes s before (mod :: rest) r := by
  have hfailed : ∀ {new : List Attempt}, (∀ a ∈ new, InVain (s.tried tried) a) →
      ∀ a ∈ new ++ tried, InVain s a := fun hnew a ha => by
    rcases List.mem_append.mp ha with ha | ha
    · exact ⟨(hnew a ha).ok, (hnew a ha).services, (hnew a ha).canStart⟩
    · exact htried a ha
  rcases h with ⟨hr, new, hnone⟩ | ⟨hr, new, skipped, m, behind, hone⟩
  · refine .inl ⟨hr, new ++ tried, ?_, hfailed hnone.failed, fun m hm => ?_⟩
    · rw [hnone.eq, Startup.tried_tried]
    · rcases List.mem_cons.mp hm with rfl | hm
      · exact hmod.imp_right fun ⟨a, ha, heq⟩ => ⟨a, List.mem_append_right new ha, heq⟩
      · exact (hnone.left m hm).imp_right fun ⟨a, ha, heq⟩ => ⟨a, List.mem_append_left _ ha, heq⟩
  · refine .inr ⟨hr, new ++ tried, mod :: skipped, m, behind, ?_, hone.canStart, ?_, hfailed hone.failed⟩
    · rw [hone.rest_eq, List.cons_append]
    · rw [hone.eq, Startup.tried_tried, List.append_assoc before]
      rfl

/-- **A pass** over the queue, from `rest` on. -/
theorem cycleOneFrom_spec : ∀ (rest before : List ModuleLaunch) (s : Startup),
    s.moduleToLaunch = before ++ rest → Passes s before rest (cycleOneFrom starts before.length rest s)
  | [], _, s, _ => .inl ⟨rfl, [], rfl, fun _ h => absurd h List.not_mem_nil, fun _ h => absurd h List.not_mem_nil⟩
  | mod :: rest, before, s, hq => by
    have hlen : (before ++ [mod]).length = before.length + 1 := List.length_append
    have hqueue : s.moduleToLaunch = (before ++ [mod]) ++ rest := by
      rw [hq, List.append_assoc]
      rfl
    rw [cycleOneFrom]
    by_cases hcan : s.canStart mod = true
    · rw [if_pos hcan]
      by_cases hok : starts s.attempts mod.name = true
      · have herase : s.moduleToLaunch.eraseIdx before.length = before ++ [] ++ rest := by
          rw [hq, List.eraseIdx_append_of_length_le (Nat.le_refl _), Nat.sub_self, List.eraseIdx_cons_zero,
            List.append_nil]
        simp only [hok, if_true]
        refine .inr ⟨rfl, [], [], mod, rest, rfl, hcan, ?_, fun _ h => absurd h List.not_mem_nil⟩
        rw [← herase]
        rfl
      · have hfalse : starts s.attempts mod.name = false := Bool.eq_false_iff.mpr hok
        simp only [hfalse, Bool.false_eq_true, if_false]
        rw [← hlen]
        refine Passes.cons [⟨mod, s.startedServices, false⟩] (fun a ha => ?_)
          (.inr ⟨_, List.mem_singleton.mpr rfl, rfl⟩)
          (cycleOneFrom_spec rest (before ++ [mod]) (s.tried [⟨mod, s.startedServices, false⟩]) hqueue)
        rw [List.mem_singleton.mp ha]
        exact ⟨rfl, rfl, hcan⟩
    · rw [if_neg hcan, ← hlen]
      exact Passes.cons [] (fun _ h => absurd h List.not_mem_nil) (.inl (Bool.eq_false_iff.mpr hcan))
        (cycleOneFrom_spec rest (before ++ [mod]) s hqueue)

variable (starts) in
theorem cycleOne_spec (s : Startup) : Passes { s with pass := [] } [] s.moduleToLaunch (cycleOne starts s) :=
  cycleOneFrom_spec s.moduleToLaunch [] { s with pass := [] } rfl

/-- A pass that starts a module makes the queue shorter. -/
theorem length_cycleOne {s : Startup} (h : (cycleOne starts s).1 = true) :
    (cycleOne starts s).2.moduleToLaunch.length + 1 = s.moduleToLaunch.length := by
  rcases cycleOne_spec starts s with ⟨hr, -⟩ | ⟨-, new, skipped, mod, behind, hone⟩
  · rw [hr] at h
    cases h
  · rw [hone.eq, hone.rest_eq]
    simp only [List.nil_append, List.length_append, List.length_cons]
    omega

variable (starts)

/-- `try_startup_modules_cycle`. -/
def cycle (s : Startup) : Startup :=
  if _h : (cycleOne starts s).1 = true then cycle (cycleOne starts s).2 else (cycleOne starts s).2
termination_by s.moduleToLaunch.length
decreasing_by exact Nat.lt_of_succ_le (Nat.le_of_eq (length_cycleOne _h))

/-- `startup_module`, when the configuration and the PCI scan have queued
`config`. -/
def startupModule (config : List ModuleLaunch) (s : Startup) : Startup :=
  cycle starts { s with gmcx := true, moduleToLaunch := s.moduleToLaunch ++ config }

/-- `service_startup_callback`. -/
def serviceStartupCallback (serviceName : Str) (s : Startup) : Except String Startup :=
  if !s.gmcx then .error "machine context is null"
  else .ok (cycle starts { s with startedServices := s.startedServices ++ [serviceName] })

/-- The services `events` announce themselves, one after the other. -/
def announce : (events : List Str) → Startup → Startup
  | [], s => s
  | e :: events, s =>
    match serviceStartupCallback starts e s with
    | .error _ => announce events s
    | .ok s => announce events s

/-- `init` has started with the configuration `config`, and the services `events`
have announced themselves since. -/
def after (config : List ModuleLaunch) (events : List Str) : Startup :=
  announce starts events (startupModule starts config {})

/-! ### Runs -/

/-- `s` is the state after `n` passes, each of which started a module, and one
more that started none. -/
def EndsAfter (n : ℕ) (s s' : Startup) : Prop :=
  (∀ k < n, (cycleOne starts ((fun s => (cycleOne starts s).2)^[k] s)).1 = true) ∧
    cycleOne starts ((fun s => (cycleOne starts s).2)^[n] s) = (false, s')

variable {starts} {config : List ModuleLaunch}

/-- **Every cycle ends**, after one pass more than modules were queued at most. -/
theorem cycle_ends (s : Startup) : ∃ n ≤ s.moduleToLaunch.length, EndsAfter starts n s (cycle starts s) := by
  induction s using cycle.induct starts with
  | case1 s h ih =>
    obtain ⟨n, hn, hall, hlast⟩ := ih
    have hlen := length_cycleOne h
    refine ⟨n + 1, by omega, fun k hk => ?_, ?_⟩
    · cases k with
      | zero => exact h
      | succ k => exact hall k (by omega)
    · rw [cycle, dif_pos h]
      exact hlast
  | case2 s h =>
    refine ⟨0, Nat.zero_le _, fun k hk => absurd hk (Nat.not_lt_zero k), ?_⟩
    rw [cycle, dif_neg h, ← Bool.eq_false_iff.mpr h]
    rfl

theorem mem_of_canStart {s : Startup} {mod : ModuleLaunch} (h : s.canStart mod = true) {d : Str} (hd : d ∈ mod.deps) :
    d ∈ s.startedServices :=
  List.contains_iff_mem.mp (List.all_eq_true.mp h d hd)

theorem missing_of_not_canStart {s : Startup} {mod : ModuleLaunch} (h : s.canStart mod = false) :
    ∃ d ∈ mod.deps, d ∉ s.startedServices := by
  obtain ⟨d, hd, hnot⟩ := List.all_eq_false.mp h
  exact ⟨d, hd, fun hmem => hnot (List.contains_iff_mem.mpr hmem)⟩

/-- Each call got the answer that `starts` gives after those before it. -/
def Answered (starts : List Attempt → Str → Bool) : List Attempt → Prop
  | [] => True
  | a :: earlier => a.ok = starts earlier a.mod.name ∧ Answered starts earlier

theorem Answered.of_mem : ∀ {attempts : List Attempt}, Answered starts attempts → ∀ a ∈ attempts, ∃ h, a.ok = starts h a.mod.name
  | _ :: earlier, h, a, ha => by
    rcases List.mem_cons.mp ha with rfl | ha
    · exact ⟨earlier, h.1⟩
    · exact h.2.of_mem a ha

theorem answered_cycleOneFrom : ∀ (rest : List ModuleLaunch) (i : ℕ) {s : Startup}, Answered starts s.attempts →
    Answered starts (cycleOneFrom starts i rest s).2.attempts
  | [], _, _, h => h
  | mod :: rest, i, s, h => by
    rw [cycleOneFrom]
    split
    · dsimp only
      have hnext : Answered starts (s.tried [⟨mod, s.startedServices, starts s.attempts mod.name⟩]).attempts := ⟨rfl, h⟩
      split
      · exact hnext
      · exact answered_cycleOneFrom rest (i + 1) hnext
    · exact answered_cycleOneFrom rest (i + 1) h

/-- What holds of `init`, whatever was called. -/
structure Inv (starts : List Attempt → Str → Bool) (config : List ModuleLaunch) (s : Startup) : Prop where
  /-- Each module was started once, or is queued. -/
  conserved : (s.launched ++ s.moduleToLaunch).Perm config
  names : s.startedModules.Perm (s.launched.map ModuleLaunch.name)
  /-- Only modules with their dependencies there were tried. -/
  ready : ∀ a ∈ s.attempts, ∀ d ∈ a.mod.deps, d ∈ a.services
  announced : ∀ a ∈ s.attempts, a.services <+: s.startedServices
  answered : Answered starts s.attempts
  recent : s.pass ⊆ s.attempts

/-- What is still queued lacks a dependency, or the last pass tried it in vain
with the services that are there. -/
def Settled (s : Startup) : Prop :=
  ∀ m ∈ s.moduleToLaunch, (∃ d ∈ m.deps, d ∉ s.startedServices) ∨
    ∃ a ∈ s.pass, a.mod = m ∧ a.ok = false ∧ a.services = s.startedServices

theorem launched_tried {s : Startup} {new : List Attempt} (h : ∀ a ∈ new, a.ok = false) :
    (s.tried new).launched = s.launched := by
  have hnone : new.filter Attempt.ok = [] := List.filter_eq_nil_iff.mpr fun a ha => by
    rw [h a ha]
    exact Bool.false_ne_true
  unfold Startup.launched Startup.tried
  rw [List.filter_append, hnone, List.nil_append]

/-- A pass that called `start_service` for modules that could start. -/
theorem inv_tried {s s' : Startup} (new : List Attempt) (hI : Inv starts config s)
    (hnew : ∀ a ∈ new, a.services = s.startedServices ∧ s.canStart a.mod = true)
    (hanswered : Answered starts s'.attempts) (hattempts : s'.attempts = new ++ s.attempts) (hpass : s'.pass = new)
    (hservices : s'.startedServices = s.startedServices)
    (hconserved : (s'.launched ++ s'.moduleToLaunch).Perm (s.launched ++ s.moduleToLaunch))
    (hnames : s'.startedModules.Perm (s'.launched.map ModuleLaunch.name)) : Inv starts config s' where
  conserved := hconserved.trans hI.conserved
  names := hnames
  ready a ha d hd := by
    rw [hattempts] at ha
    rcases List.mem_append.mp ha with ha | ha
    · rw [(hnew a ha).1]
      exact mem_of_canStart (hnew a ha).2 hd
    · exact hI.ready a ha d hd
  announced a ha := by
    rw [hattempts] at ha
    rw [hservices]
    rcases List.mem_append.mp ha with ha | ha
    · exact (hnew a ha).1 ▸ List.prefix_refl s.startedServices
    · exact hI.announced a ha
  answered := hanswered
  recent := by
    rw [hpass, hattempts]
    exact List.subset_append_left _ _

/-- A pass keeps the invariant. -/
theorem inv_cycleOne {s : Startup} (hI : Inv starts config s) : Inv starts config (cycleOne starts s).2 := by
  rcases cycleOne_spec starts s with ⟨-, new, hnone⟩ | ⟨-, new, skipped, mod, behind, hone⟩
  · have hlaunched : (cycleOne starts s).2.launched = s.launched := by
      rw [hnone.eq]
      exact launched_tried fun a ha => (hnone.failed a ha).ok
    refine inv_tried new hI (fun a ha => ⟨(hnone.failed a ha).services, (hnone.failed a ha).canStart⟩)
      (answered_cycleOneFrom _ _ hI.answered) ?_ ?_ ?_ ?_ ?_
    · rw [hnone.eq]
      rfl
    · rw [hnone.eq]
      exact List.append_nil new
    · rw [hnone.eq]
      rfl
    · rw [hlaunched, hnone.eq]
      exact List.Perm.refl _
    · rw [hlaunched, hnone.eq]
      exact hI.names
  · have hlaunched : (cycleOne starts s).2.launched = mod :: s.launched := by
      rw [hone.eq]
      exact congrArg (mod :: ·) (launched_tried (s := s) fun a ha => (hone.failed a ha).ok)
    refine inv_tried (⟨mod, s.startedServices, true⟩ :: new) hI (fun a ha => ?_)
      (answered_cycleOneFrom _ _ hI.answered) ?_ ?_ ?_ ?_ ?_
    · rcases List.mem_cons.mp ha with rfl | ha
      · exact ⟨rfl, hone.canStart⟩
      · exact ⟨(hone.failed a ha).services, (hone.failed a ha).canStart⟩
    · rw [hone.eq]
      rfl
    · rw [hone.eq]
      exact List.append_nil _
    · rw [hone.eq]
      rfl
    · rw [hlaunched, hone.eq, hone.rest_eq]
      rw [List.nil_append, List.cons_append, ← List.append_assoc, ← List.append_assoc]
      exact List.perm_middle.symm
    · rw [hlaunched, hone.eq, List.map_cons]
      exact (List.perm_append_singleton _ _).trans (hI.names.cons _)

theorem startedServices_cycleOne (s : Startup) : (cycleOne starts s).2.startedServices = s.startedServices := by
  rcases cycleOne_spec starts s with ⟨-, new, hnone⟩ | ⟨-, new, skipped, mod, behind, hone⟩
  · rw [hnone.eq]
    rfl
  · rw [hone.eq]
    rfl

theorem settled_cycleOne {s : Startup} (h : (cycleOne starts s).1 ≠ true) : Settled (cycleOne starts s).2 := by
  rcases cycleOne_spec starts s with ⟨-, new, hnone⟩ | ⟨hr, -⟩
  · rw [hnone.eq]
    intro m hm
    rcases hnone.left m hm with hmissing | ⟨a, ha, heq⟩
    · exact .inl (missing_of_not_canStart hmissing)
    · exact .inr ⟨a, List.mem_append_left _ ha, heq, (hnone.failed a ha).ok, (hnone.failed a ha).services⟩
  · exact absurd hr h

theorem gmcx_cycleOne (s : Startup) : (cycleOne starts s).2.gmcx = s.gmcx := by
  rcases cycleOne_spec starts s with ⟨-, new, hnone⟩ | ⟨-, new, skipped, mod, behind, hone⟩
  · rw [hnone.eq]
    rfl
  · rw [hone.eq]
    rfl

variable (starts) in
/-- **What a cycle keeps**, and how it leaves the queue. -/
theorem cycle_spec {s : Startup} (hI : Inv starts config s) :
    Inv starts config (cycle starts s) ∧ Settled (cycle starts s) ∧
      (cycle starts s).startedServices = s.startedServices ∧ (cycle starts s).gmcx = s.gmcx := by
  induction s using cycle.induct starts with
  | case1 s h ih =>
    obtain ⟨hI', hsettled, hservices, hgmcx⟩ := ih (inv_cycleOne hI)
    rw [cycle, dif_pos h]
    exact ⟨hI', hsettled, hservices.trans (startedServices_cycleOne s), hgmcx.trans (gmcx_cycleOne s)⟩
  | case2 s h =>
    rw [cycle, dif_neg h]
    exact ⟨inv_cycleOne hI, settled_cycleOne h, startedServices_cycleOne s, gmcx_cycleOne s⟩

/-- The state between two cycles. -/
structure Between (starts : List Attempt → Str → Bool) (config : List ModuleLaunch) (services : List Str) (s : Startup) : Prop where
  inv : Inv starts config s
  settled : Settled s
  services : s.startedServices = services
  gmcx : s.gmcx = true

theorem between_announce : ∀ (events services : List Str) {s : Startup}, Between starts config services s →
    Between starts config (services ++ events) (announce starts events s)
  | [], services, s, h => by
    rw [List.append_nil]
    exact h
  | e :: events, services, s, h => by
    have hI : Inv starts config { s with startedServices := s.startedServices ++ [e] } := by
      refine ⟨h.inv.conserved, h.inv.names, h.inv.ready, fun a ha => ?_, h.inv.answered, h.inv.recent⟩
      exact (h.inv.announced a ha).trans (List.prefix_append _ _)
    obtain ⟨hI', hsettled, hservices, hgmcx⟩ := cycle_spec starts hI
    have hstep : serviceStartupCallback starts e s =
        .ok (cycle starts { s with startedServices := s.startedServices ++ [e] }) := by
      unfold serviceStartupCallback
      rw [h.gmcx]
      rfl
    have hnext : Between starts config (services ++ [e]) (cycle starts { s with startedServices := s.startedServices ++ [e] }) :=
      ⟨hI', hsettled, by rw [hservices, ← h.services], hgmcx.trans h.gmcx⟩
    rw [announce, hstep, ← List.singleton_append, ← List.append_assoc]
    exact between_announce events (services ++ [e]) hnext

variable (starts) in
theorem between_after (config : List ModuleLaunch) (events : List Str) :
    Between starts config events (after starts config events) := by
  have hI : Inv starts config { gmcx := true, moduleToLaunch := [] ++ config } :=
    ⟨List.Perm.refl _, List.Perm.refl _, fun _ ha => absurd ha List.not_mem_nil,
      fun _ ha => absurd ha List.not_mem_nil, trivial, List.Subset.refl _⟩
  obtain ⟨hI', hsettled, hservices, hgmcx⟩ := cycle_spec starts hI
  exact between_announce events [] ⟨hI', hsettled, hservices, hgmcx⟩

/-- If no start fails, the modules with their dependencies there are started. -/
theorem launched_perm (hnever : ∀ h name, starts h name = true) {services : List Str} {s : Startup}
    (h : Between starts config services s) :
    s.launched.Perm (config.filter fun m => m.deps.all fun d => services.contains d) := by
  have hstarted : ∀ m ∈ s.launched, (m.deps.all fun d => services.contains d) = true := fun m hm => by
    obtain ⟨a, ha, rfl⟩ := List.mem_map.mp hm
    have hattempt := List.mem_of_mem_filter ha
    refine List.all_eq_true.mpr fun d hd => List.contains_iff_mem.mpr ?_
    rw [← h.services]
    exact (h.inv.announced a hattempt).subset (h.inv.ready a hattempt d hd)
  have hqueued : ∀ m ∈ s.moduleToLaunch, ¬ (m.deps.all fun d => services.contains d) = true := fun m hm hall => by
    rcases h.settled m hm with ⟨d, hd, hnot⟩ | ⟨a, ha, -, hfalse, -⟩
    · rw [h.services] at hnot
      exact hnot (List.contains_iff_mem.mp (List.all_eq_true.mp hall d hd))
    · obtain ⟨called, hanswer⟩ := h.inv.answered.of_mem a (h.inv.recent ha)
      rw [hnever, hfalse] at hanswer
      cases hanswer
  have hfilter := h.inv.conserved.filter fun m => m.deps.all fun d => services.contains d
  rw [List.filter_append, List.filter_eq_self.mpr hstarted, List.filter_eq_nil_iff.mpr hqueued, List.append_nil]
    at hfilter
  exact hfilter

/-- **The order does not matter**, of the configuration and of the announcements,
if no start fails. -/
theorem startedModules_perm (hnever : ∀ h name, starts h name = true) {config' : List ModuleLaunch}
    {events events' : List Str} (hconfig : config'.Perm config) (hevents : events'.Perm events) :
    (after starts config' events').startedModules.Perm (after starts config events).startedModules := by
  have hsame : (fun m : ModuleLaunch => m.deps.all fun d => events'.contains d) =
      fun m => m.deps.all fun d => events.contains d := by
    funext m
    refine congrArg (m.deps.all ·) (funext fun d => ?_)
    rw [Bool.eq_iff_iff, List.contains_iff_mem, List.contains_iff_mem]
    exact hevents.mem_iff
  have hleft := launched_perm hnever (between_after starts config' events')
  have hright := launched_perm hnever (between_after starts config events)
  rw [hsame] at hleft
  have hlaunched := hleft.trans ((hconfig.filter _).trans hright.symm)
  exact (between_after starts config' events').inv.names.trans
    ((hlaunched.map ModuleLaunch.name).trans (between_after starts config events).inv.names.symm)

/-- What `init` owes its modules after the announcements `events`, in the state `s`. -/
structure Complete (starts : List Attempt → Str → Bool) (config : List ModuleLaunch) (events : List Str) (s : Startup) : Prop where
  services : s.startedServices = events
  /-- Each module was started once, or is queued. -/
  conserved : (s.launched ++ s.moduleToLaunch).Perm config
  names : s.startedModules.Perm (s.launched.map ModuleLaunch.name)
  /-- It was tried with its dependencies among the services that were there. -/
  ready : ∀ a ∈ s.attempts, a.services <+: events ∧ ∀ d ∈ a.mod.deps, d ∈ a.services
  /-- It was started if `start_service` said so. -/
  answered : Answered starts s.attempts
  recent : s.pass ⊆ s.attempts
  settled : Settled s
  /-- If no start fails, those are started whose dependencies are there. -/
  never_fails : (∀ h name, starts h name = true) →
    s.launched.Perm (config.filter fun m => m.deps.all fun d => events.contains d)

variable (starts) in
theorem complete_after (config : List ModuleLaunch) (events : List Str) :
    Complete starts config events (after starts config events) := by
  have h := between_after starts config events
  refine ⟨h.services, h.inv.conserved, h.inv.names, fun a ha => ⟨?_, h.inv.ready a ha⟩, h.inv.answered, h.inv.recent,
    h.settled, fun hnever => launched_perm hnever h⟩
  rw [← h.services]
  exact h.inv.announced a ha

/-- **Startup is complete**, whatever `start_service` does and in whatever order
services announce themselves. -/
theorem startup_complete (starts : List Attempt → Str → Bool) :
    (∀ s : Startup, ∃ n ≤ s.moduleToLaunch.length, EndsAfter starts n s (cycle starts s)) ∧
      ∀ (config : List ModuleLaunch) (events : List Str),
        Complete starts config events (after starts config events) ∧
        ((∀ h name, starts h name = true) → ∀ config' events', config'.Perm config → events'.Perm events →
          (after starts config' events').startedModules.Perm (after starts config events).startedModules) :=
  ⟨cycle_ends, fun config events => ⟨complete_after starts config events,
    fun hnever _ _ hconfig hevents => startedModules_perm hnever hconfig hevents⟩⟩

end Cycle

end ModuleStartup
end WingOS
