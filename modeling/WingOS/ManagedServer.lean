/-
# Servers

`prot::ManagedServer` (`protocols/server_helper.hpp`): a server receives the
messages of its clients, and gives each to the handler that is registered for the
port of the connection. The kernel numbers the connections of an endpoint
(`Space::create_ipc_connection`); a handler is registered for a port when the
server makes a connection itself, and when a message of an unknown port comes.

What a handler does is a parameter: what it does to the server's connections, how
often it replies, and how it ends.

No two connections of an endpoint get the same port. The messages go to the right
handlers as long as `create_connection` registers none for a port that has one
already, which it does not look at (`clients_apart`): it could be port 0, of
connections that the kernel refused, or a port that a message has forged.

Key definitions: `Server`, `createIpcConnection`, `createConnection`,
`doReceive`, `Fresh`, `Right`.
Key theorems: `Keeps.run`, `keeps_apart`, `clients_apart`.
-/
import WingOS.UMapRuns

namespace WingOS
namespace ManagedServer

open Lib (run Meets)

/-- One argument of a message. -/
structure IpcData where
  isAsset : Bool := false
  data : ℕ := 0

/-- A message, without the buffer for texts. The port of a message that waits for
the server is in memory of the sender. -/
structure IpcMessage where
  args : ℕ → IpcData
  port : ℕ
  isNull : Bool := false
  interrupted : Bool := false

/-- `arg`; `none` is `unreachable$`. -/
def IpcMessage.arg (msg : IpcMessage) (id : ℕ) : Option ℕ :=
  if (msg.args id).isAsset then none else some (msg.args id).data

/-- `asset`; `none` is `unreachable$`. -/
def IpcMessage.asset (msg : IpcMessage) (id : ℕ) : Option ℕ :=
  if (msg.args id).isAsset then some (msg.args id).data else none

/-- `PROT_SIGNAL_DISCONNECT`. -/
def protSignalDisconnect : ℕ := 2 ^ 64 - 1

/-- How a call ends; `stuck` if it does not: the code waits for ever, or the
processor stops it. -/
inductive Ending
  | returned
  | failed (e : String)
  | stuck
  deriving DecidableEq

/-- What is done to the connections of a server; `connects` says if the kernel
makes the connection. -/
inductive Action (H : Type*)
  | create (connects : Bool) (handler : H)
  | disconnect (port : ℕ)

/-- What `call_received` does. -/
structure Handled (H : Type*) where
  actions : List (Action H) := []
  replies : ℕ := 0
  ending : Ending := .returned

/-- What `on_connect` does. -/
inductive Connected (H : Type*)
  | accepted (handler : H)
  | refused (e : String)
  | stuck

inductive Event (H : Type*)
  | registered (port : ℕ) (handler : H)
  | dispatched (port : ℕ) (handler : H)

/-- A server and its endpoint: the next port and those that were handed out, in
the kernel; the handlers; whether the server is stuck; and what happened, the
newest first. -/
structure Server (H : Type*) where
  lastPort : ℕ := 16
  issued : List ℕ := []
  connections : UMap ℕ H := {}
  stuck : Bool := false
  events : List (Event H) := []

section Model

variable {H : Type*} (hash : ℕ → ℕ)

namespace Server

/-- The part of `create_ipc_connection` under the lock of the endpoint; the
counter is a `long`, and `none` is its overflow. -/
def createIpcConnection (s : Server H) : Option (ℕ × Server H) :=
  if s.lastPort + 1 < 2 ^ 63 then
    some (s.lastPort, { s with lastPort := s.lastPort + 1, issued := s.lastPort :: s.issued })
  else none

def register (s : Server H) (port : ℕ) (handler : H) : Server H :=
  { s with
    connections := s.connections.insert hash port handler
    events := .registered port handler :: s.events }

/-- `create_connection`; a connection that the kernel does not make has port 0. -/
def createConnection (s : Server H) (connects : Bool) (handler : H) : Option (Server H) :=
  if connects then s.createIpcConnection.map fun r => r.2.register hash r.1 handler
  else some (s.register hash 0 handler)

def disconnect (s : Server H) (port : ℕ) : Server H :=
  { s with connections := s.connections.remove hash port }

def act (s : Server H) : Action H → Option (Server H)
  | .create connects handler => s.createConnection hash connects handler
  | .disconnect port => some (s.disconnect hash port)

/-- A message, with the handler that gets it. -/
def handle (s : Server H) (msg : IpcMessage) (call : H → Handled H) : Option (Server H × ℕ × Ending) :=
  match s.connections.get hash msg.port with
  | none => some ({ s with stuck := true }, 0, .stuck)
  | some handler =>
    let s := { s with events := .dispatched msg.port handler :: s.events }
    if (msg.args 0).data = protSignalDisconnect then some (s.disconnect hash msg.port, 0, .returned)
    else
      let handled := call handler
      (run (act hash) handled.actions s).map fun s =>
        (match handled.ending with
          | .returned => s
          | .failed _ => s.disconnect hash msg.port
          | .stuck => { s with stuck := true }, handled.replies, handled.ending)

/-- The port of a message is registered, if it is not. -/
def greet (s : Server H) (msg : IpcMessage) (onConnect : Connected H) : Server H × Ending :=
  if s.connections.has hash msg.port then (s, .returned)
  else
    match onConnect with
    | .accepted handler => (s.register hash msg.port handler, .returned)
    | .refused e => (s, .failed e)
    | .stuck => ({ s with stuck := true }, .stuck)

/-- What `do_receive` and `do_receive_async` do with a message: the server then,
how many replies it has sent, and how it ends. -/
def dispatch (s : Server H) (msg : IpcMessage) (onConnect : Connected H) (call : H → Handled H) :
    Option (Server H × ℕ × Ending) :=
  match s.greet hash msg onConnect with
  | (s, .returned) => s.handle hash msg call
  | (s, ending) => some (s, 0, ending)

/-- `do_receive`. -/
def doReceive (s : Server H) (msg : IpcMessage) (onConnect : Connected H) (call : H → Handled H) :
    Option (Server H × ℕ × Ending) :=
  if msg.interrupted then
    match msg.asset 0 with
    | none => some ({ s with stuck := true }, 0, .stuck)
    | some _ => some (s, 0, .returned)
  else s.dispatch hash msg onConnect call

/-- `do_receive_async`. -/
def doReceiveAsync (s : Server H) (msg : IpcMessage) (onConnect : Connected H) (call : H → Handled H) :
    Option (Server H × ℕ × Ending) :=
  if msg.isNull then some (s, 0, .returned) else s.dispatch hash msg onConnect call

end Server

/-- What happens to a server: a client connects, the server does something to its
connections, or it receives a message. -/
inductive ServerOp (H : Type*)
  | connect
  | act (a : Action H)
  | receive (msg : IpcMessage) (onConnect : Connected H) (call : H → Handled H)
  | receiveAsync (msg : IpcMessage) (onConnect : Connected H) (call : H → Handled H)

def Server.step (s : Server H) (op : ServerOp H) : Option (Server H) :=
  match op with
  -- a client does not need the server
  | .connect => s.createIpcConnection.map Prod.snd
  | .act a => if s.stuck then none else s.act hash a
  | .receive msg onConnect call => if s.stuck then none else (s.doReceive hash msg onConnect call).map Prod.fst
  | .receiveAsync msg onConnect call =>
    if s.stuck then none else (s.doReceiveAsync hash msg onConnect call).map Prod.fst

/-! ### What a server should do -/

/-- The handler that was registered for a port last. -/
def latest : List (Event H) → ℕ → Option H
  | [], _ => none
  | .registered port handler :: events, p => if port = p then some handler else latest events p
  | .dispatched _ _ :: events, p => latest events p

/-- Each message went to the handler that was registered for its port last. -/
def Right : List (Event H) → Prop
  | [] => True
  | .registered _ _ :: events => Right events
  | .dispatched port handler :: events => latest events port = some handler ∧ Right events

/-- `create_connection` registers a port that has no handler. -/
def Fresh (s : Server H) : Action H → Prop
  | .create connects _ => s.connections.has hash (if connects then s.lastPort else 0) = false
  | .disconnect _ => True

/-- The actions of a call meet `A`, each in the server that it starts from. -/
def CallMeets (A : Server H → Action H → Prop) (s : Server H) (msg : IpcMessage) (onConnect : Connected H)
    (call : H → Handled H) : Prop :=
  (s.greet hash msg onConnect).2 = .returned → ∀ handler,
    (s.greet hash msg onConnect).1.connections.get hash msg.port = some handler →
    (msg.args 0).data ≠ protSignalDisconnect →
    Meets (Server.act hash) A (call handler).actions
      { (s.greet hash msg onConnect).1 with
        events := .dispatched msg.port handler :: (s.greet hash msg onConnect).1.events }

def OpMeets (A : Server H → Action H → Prop) (s : Server H) : ServerOp H → Prop
  | .connect => True
  | .act a => A s a
  | .receive msg onConnect call => msg.interrupted = false → CallMeets hash A s msg onConnect call
  | .receiveAsync msg onConnect call => msg.isNull = false → CallMeets hash A s msg onConnect call

end Model

/-! ### What every operation keeps -/

section Keeps

variable {H : Type*} {hash : ℕ → ℕ}

/-- What each part of an operation keeps, if the actions meet `A`. -/
structure Keeps (hash : ℕ → ℕ) (A : Server H → Action H → Prop) (P : Server H → Prop) : Prop where
  connect : ∀ {s r}, P s → s.createIpcConnection = some r → P r.2
  act : ∀ {s a s'}, P s → A s a → s.act hash a = some s' → P s'
  register : ∀ {s port}, P s → s.connections.has hash port = false → ∀ handler, P (s.register hash port handler)
  disconnect : ∀ {s}, P s → ∀ port, P (s.disconnect hash port)
  stuck : ∀ {s}, P s → P { s with stuck := true }
  dispatched : ∀ {s port handler}, P s → s.connections.get hash port = some handler →
    P { s with events := .dispatched port handler :: s.events }

variable {A : Server H → Action H → Prop} {P : Server H → Prop} {s s' : Server H} {msg : IpcMessage}
  {onConnect : Connected H} {call : H → Handled H} {replies : ℕ} {ending : Ending}

theorem Keeps.greet (hkeeps : Keeps hash A P) (hP : P s) : P (s.greet hash msg onConnect).1 := by
  unfold Server.greet
  cases hhas : s.connections.has hash msg.port with
  | true => exact hP
  | false =>
    cases onConnect with
    | accepted handler => exact hkeeps.register hP hhas handler
    | refused e => exact hP
    | stuck => exact hkeeps.stuck hP

theorem Keeps.handle (hkeeps : Keeps hash A P) (hP : P s)
    (hmeets : ∀ handler, s.connections.get hash msg.port = some handler →
      (msg.args 0).data ≠ protSignalDisconnect →
      Meets (Server.act hash) A (call handler).actions
        { s with events := .dispatched msg.port handler :: s.events })
    (h : s.handle hash msg call = some (s', replies, ending)) : P s' := by
  unfold Server.handle at h
  cases hget : s.connections.get hash msg.port with
  | none =>
    rw [hget] at h
    cases h
    exact hkeeps.stuck hP
  | some handler =>
    have hdispatched := hkeeps.dispatched hP hget
    rw [hget] at h
    dsimp only at h
    split at h
    · cases h
      exact hkeeps.disconnect hdispatched _
    · rename_i hsignal
      obtain ⟨s₁, hrun, heq⟩ := Option.map_eq_some_iff.mp h
      have hP₁ : P s₁ := Lib.run_invariant_of_meets (fun _ _ _ => hkeeps.act) _ (hmeets handler hget hsignal) hdispatched hrun
      cases hending : (call handler).ending with
      | returned =>
        rw [hending] at heq
        cases heq
        exact hP₁
      | failed e =>
        rw [hending] at heq
        cases heq
        exact hkeeps.disconnect hP₁ _
      | stuck =>
        rw [hending] at heq
        cases heq
        exact hkeeps.stuck hP₁

theorem Keeps.dispatch (hkeeps : Keeps hash A P) (hP : P s) (hmeets : CallMeets hash A s msg onConnect call)
    (h : s.dispatch hash msg onConnect call = some (s', replies, ending)) : P s' := by
  have hgreet : P (s.greet hash msg onConnect).1 := hkeeps.greet hP
  unfold Server.dispatch at h
  unfold CallMeets at hmeets
  generalize s.greet hash msg onConnect = r at *
  obtain ⟨s₁, ending₁⟩ := r
  cases ending₁ with
  | returned => exact hkeeps.handle hgreet (hmeets rfl) h
  | failed e =>
    cases h
    exact hgreet
  | stuck =>
    cases h
    exact hgreet

/-- **One operation.** -/
theorem Keeps.step (hkeeps : Keeps hash A P) (s : Server H) (op : ServerOp H) (s' : Server H) (hP : P s)
    (hmeets : OpMeets hash A s op) (h : s.step hash op = some s') : P s' := by
  cases op with
  | connect =>
    obtain ⟨r, hr, rfl⟩ := Option.map_eq_some_iff.mp h
    exact hkeeps.connect hP hr
  | act a =>
    obtain ⟨-, hact⟩ := Option.ite_none_left_eq_some.mp h
    exact hkeeps.act hP hmeets hact
  | receive msg onConnect call =>
    obtain ⟨-, hmap⟩ := Option.ite_none_left_eq_some.mp h
    obtain ⟨⟨s₁, replies, ending⟩, hdo, rfl⟩ := Option.map_eq_some_iff.mp hmap
    unfold Server.doReceive at hdo
    cases hinterrupted : msg.interrupted with
    | true =>
      rw [hinterrupted, if_pos rfl] at hdo
      split at hdo
      · cases hdo
        exact hkeeps.stuck hP
      · cases hdo
        exact hP
    | false =>
      rw [hinterrupted, if_neg Bool.false_ne_true] at hdo
      exact hkeeps.dispatch hP (hmeets hinterrupted) hdo
  | receiveAsync msg onConnect call =>
    obtain ⟨-, hmap⟩ := Option.ite_none_left_eq_some.mp h
    obtain ⟨⟨s₁, replies, ending⟩, hdo, rfl⟩ := Option.map_eq_some_iff.mp hmap
    unfold Server.doReceiveAsync at hdo
    cases hnull : msg.isNull with
    | true =>
      rw [hnull, if_pos rfl] at hdo
      cases hdo
      exact hP
    | false =>
      rw [hnull, if_neg Bool.false_ne_true] at hdo
      exact hkeeps.dispatch hP (hmeets hnull) hdo

theorem Keeps.run (hkeeps : Keeps hash A P) {ops : List (ServerOp H)}
    (hmeets : Meets (Server.step hash) (OpMeets hash A) ops s) (hP : P s) (h : run (Server.step hash) ops s = some s') :
    P s' :=
  Lib.run_invariant_of_meets hkeeps.step ops hmeets hP h

theorem opMeets_of_all (hall : ∀ s a, A s a) (s : Server H) (op : ServerOp H) : OpMeets hash A s op := by
  have hmeets : ∀ (actions : List (Action H)) (s : Server H), Meets (Server.act hash) A actions s := fun actions s =>
    (Lib.meets_congr (fun s a => iff_of_true (hall s a) trivial) actions s).mpr (Lib.meets_true actions s)
  cases op with
  | connect => trivial
  | act a => exact hall s a
  | receive msg onConnect call => exact fun _ _ handler _ _ => hmeets _ _
  | receiveAsync msg onConnect call => exact fun _ _ handler _ _ => hmeets _ _

variable (hash) in
theorem meets_all (hall : ∀ s a, A s a) (ops : List (ServerOp H)) (s : Server H) :
    Meets (Server.step hash) (OpMeets hash A) ops s :=
  (Lib.meets_congr (fun s op => iff_of_true (opMeets_of_all hall s op) trivial) ops s).mpr (Lib.meets_true ops s)

end Keeps

/-! ### Handlers and their ports -/

section Apart

variable {H : Type*} {hash : ℕ → ℕ} {s : Server H}

/-- The ports that were handed out are below the next one. -/
structure Numbered (s : Server H) : Prop where
  nodup : s.issued.Nodup
  lt : ∀ p ∈ s.issued, p < s.lastPort

theorem createIpcConnection_some {r : ℕ × Server H} (h : s.createIpcConnection = some r) :
    r = (s.lastPort, { s with lastPort := s.lastPort + 1, issued := s.lastPort :: s.issued }) :=
  (Option.some.inj (Option.ite_none_right_eq_some.mp h).2).symm

theorem Numbered.createIpcConnection (h : Numbered s) {r : ℕ × Server H} (hr : s.createIpcConnection = some r) :
    Numbered r.2 := by
  rw [createIpcConnection_some hr]
  refine ⟨List.nodup_cons.mpr ⟨fun hmem => Nat.lt_irrefl _ (h.lt _ hmem), h.nodup⟩, fun p hp => ?_⟩
  rcases List.mem_cons.mp hp with rfl | hp
  · exact Nat.lt_succ_self _
  · exact Nat.lt_succ_of_lt (h.lt p hp)

theorem keeps_numbered (hash : ℕ → ℕ) : Keeps (H := H) hash (fun _ _ => True) Numbered where
  connect h hr := h.createIpcConnection hr
  act {s a s'} h _ hact := by
    cases a with
    | create connects handler =>
      cases connects with
      | true =>
        obtain ⟨r, hr, rfl⟩ := Option.map_eq_some_iff.mp hact
        have hnumbered := h.createIpcConnection hr
        exact ⟨hnumbered.nodup, hnumbered.lt⟩
      | false =>
        cases hact
        exact ⟨h.nodup, h.lt⟩
    | disconnect port =>
      cases hact
      exact ⟨h.nodup, h.lt⟩
  register h _ _ := ⟨h.nodup, h.lt⟩
  disconnect h _ := ⟨h.nodup, h.lt⟩
  stuck h := ⟨h.nodup, h.lt⟩
  dispatched h _ := ⟨h.nodup, h.lt⟩

/-- Each port has one entry at most, the handler that was registered last, and the
messages so far went to the right ones. -/
structure Apart (hash : ℕ → ℕ) (s : Server H) : Prop where
  ok : s.connections.Ok hash
  count : s.connections.count = s.connections.entries.length
  latest : ∀ {p handler}, s.connections.get hash p = some handler → latest s.events p = some handler
  right : Right s.events

theorem Apart.register (h : Apart hash s) {port : ℕ} (hhas : s.connections.has hash port = false) (handler : H) :
    Apart hash (s.register hash port handler) := by
  have hnone := (UMap.has_eq_false h.ok).mp hhas
  refine ⟨UMap.ok_insert h.ok hnone handler, ?_, fun {p other} hget => ?_, h.right⟩
  · obtain ⟨-, hperm⟩ := UMap.insert_spec h.ok.placed (k := port) handler
    show (s.connections.insert hash port handler).count = (s.connections.insert hash port handler).entries.length
    rw [UMap.count_insert, hperm.length_eq, List.length_cons, h.count]
  · have hget : (s.connections.insert hash port handler).get hash p = some other := hget
    rw [UMap.get_insert h.ok hnone] at hget
    show (if port = p then some handler else ManagedServer.latest s.events p) = some other
    by_cases hp : p = port
    · rw [if_pos hp] at hget
      rw [if_pos hp.symm, hget]
    · rw [if_neg hp] at hget
      rw [if_neg (Ne.symm hp)]
      exact h.latest hget

theorem Apart.disconnect (h : Apart hash s) (port : ℕ) : Apart hash (s.disconnect hash port) := by
  obtain ⟨hok, hcount, hget⟩ := UMap.remove_spec h.ok h.count port
  refine ⟨hok, hcount, fun {p handler} hp => ?_, h.right⟩
  have hp : (s.connections.remove hash port).get hash p = some handler := hp
  rw [hget] at hp
  exact h.latest (Option.ite_none_left_eq_some.mp hp).2

theorem keeps_apart (hash : ℕ → ℕ) : Keeps (H := H) hash (Fresh hash) (Apart hash) where
  connect h hr := by
    rw [createIpcConnection_some hr]
    exact ⟨h.ok, h.count, h.latest, h.right⟩
  act {s a s'} h hfresh hact := by
    cases a with
    | create connects handler =>
      cases connects with
      | true =>
        obtain ⟨r, hr, rfl⟩ := Option.map_eq_some_iff.mp hact
        rw [createIpcConnection_some hr]
        exact Apart.register (s := { s with lastPort := s.lastPort + 1, issued := s.lastPort :: s.issued })
          ⟨h.ok, h.count, h.latest, h.right⟩ hfresh handler
      | false =>
        cases hact
        exact h.register hfresh handler
    | disconnect port =>
      cases hact
      exact h.disconnect port
  register h hhas handler := h.register hhas handler
  disconnect h port := h.disconnect port
  stuck h := ⟨h.ok, h.count, h.latest, h.right⟩
  dispatched h hget := ⟨h.ok, h.count, h.latest, h.latest hget, h.right⟩

/-- **Clients are apart.** No port is handed out twice; and each port has one
handler, and gets its messages to it, as long as `create_connection` registers
only ports that have none. -/
theorem clients_apart (hash : ℕ → ℕ) (ops : List (ServerOp H)) {s : Server H}
    (h : run (Server.step hash) ops {} = some s) :
    s.issued.Nodup ∧ (Meets (Server.step hash) (OpMeets hash (Fresh hash)) ops {} →
      (s.connections.entries.map Prod.fst).Nodup ∧ Right s.events) := by
  constructor
  · have hall := meets_all hash (A := fun _ _ => True) (fun _ _ => trivial) ops {}
    exact ((keeps_numbered hash).run hall ⟨List.nodup_nil, fun p hp => absurd hp List.not_mem_nil⟩ h).nodup
  · intro hfresh
    have hapart := (keeps_apart hash).run hfresh
      ⟨UMap.ok_empty hash, rfl, fun hget => absurd hget (by simp [UMap.get, UMap.bucket]), trivial⟩ h
    exact ⟨hapart.ok.keys_nodup, hapart.right⟩

/-- A message of the port 16 with the opcode 1. -/
def message16 : IpcMessage where
  args := fun _ => { data := 1 }
  port := 16

def servedOnce : List (ServerOp ℕ) := [.act (.create true 7), .receive message16 (.refused "") fun _ => {}]

theorem clients_apart_servedOnce : ∃ s, run (Server.step fun port => port) servedOnce {} = some s ∧
    s.issued.Nodup ∧ (s.connections.entries.map Prod.fst).Nodup ∧ Right s.events := by
  obtain ⟨s, hs⟩ : ∃ s, run (Server.step fun port => port) servedOnce {} = some s := ⟨_, rfl⟩
  obtain ⟨hissued, hright⟩ := clients_apart _ servedOnce hs
  exact ⟨s, hs, hissued, hright ⟨rfl, fun s₁ _ => ⟨fun _ _ _ _ _ => trivial, fun _ _ => trivial⟩⟩⟩

/-- A message with a port that was not handed out is accepted, and the server
makes a connection that gets this port: the client's message goes to the handler
of the other one. -/
theorem forged_port : ∃ s : Server ℕ,
    run (Server.step fun port => port) [.receive message16 (.accepted 1) fun _ => {}, .act (.create true 2),
      .receive message16 (.accepted 3) fun _ => {}] {} = some s ∧
      ¬ (s.connections.entries.map Prod.fst).Nodup ∧ ¬ Right s.events :=
  ⟨_, rfl, by decide, fun h => absurd h.1 (by decide)⟩

end Apart

end ManagedServer
end WingOS
