/-
# The service register

Programs register the services that they offer with `init`, under a name and a
version, and other programs ask it for them (`protocols/init/init.hpp`,
`app/init/service_register.cpp`). A name is in an array of 80 characters on both
sides, and goes through the buffer of a message, which holds anything before.
`init` keeps 79 characters of it, and starts the modules that have waited for the
service.

The clients get what a partial function from names and versions gives, where a
registration adds only what was not there (`service_answers`): the first one that
fits is found, for good (`service_found`). Two names are the same if their first
79 characters are. A service that is missing is no error: `init` replies with
endpoint `2 ^ 64 - 1`, and the client looks for 0.

Key definitions: `Init`, `Request.message`, `callReceived`, `Registry`, `firstFit`.
Key theorems: `text_message`, `serviceGet_eq`, `service_answers`, `service_found`.
-/
import Mathlib.Algebra.Group.Nat.Defs
import Mathlib.Data.List.TakeWhile
import WingOS.ModuleStartup

namespace WingOS
namespace ServiceRegister

open ModuleStartup (Str Startup ModuleLaunch Attempt serviceStartupCallback startupModule announce)

/-! ### Names -/

/-- The `fc::Str` of a `char *`. -/
def ofChars (chars : List UInt8) : Str := chars.takeWhile (· ≠ 0)

/-- A loop that writes characters to the beginning of a buffer. -/
def overwrite {n : ℕ} (buffer : Vector UInt8 n) (text : List UInt8) : Vector UInt8 n :=
  .ofFn fun i => text.getD i buffer[i]

/-- `copy_to`. -/
def copyTo {n : ℕ} (name : Str) (buffer : Vector UInt8 n) : Vector UInt8 n :=
  let len := if name.length ≥ n then n - 1 else name.length
  overwrite buffer (name.take len ++ [0])

/-- `char name[80]`, of a structure that is initialised. -/
abbrev Chars := Vector UInt8 80

def Chars.zero : Chars := .replicate 80 0

/-! ### The messages -/

structure InitRegisterServer where
  name : Chars
  major : ℕ
  minor : ℕ
  endpoint : ℕ

structure InitGetServer where
  name : Chars
  major : ℕ
  minor : ℕ

structure InitGetServerResponse where
  endpoint : ℕ
  major : ℕ := 0
  minor : ℕ := 0
  deriving DecidableEq

structure InitQueryFbResponse where
  framebufferAddr : ℕ
  framebufferWidth : ℕ
  framebufferHeight : ℕ
  deriving DecidableEq

/-- `InitMessageType`. -/
def initRegisterServer : ℕ := 1
def initUnregisterServer : ℕ := 2
def initGetServer : ℕ := 3
def initSignalFsAvailable : ℕ := 5
def initQueryFb : ℕ := 6

/-- An `IpcMessage`; the arguments that are not there are 0. -/
structure Message where
  args : List ℕ
  rawBuffer : Vector UInt8 112
  len : ℕ := 0

def Message.arg (msg : Message) (id : ℕ) : ℕ := msg.args.getD id 0

/-- `fc::Str((char *)msg.raw_buffer, msg.len - 1)`. -/
def Message.text (msg : Message) : Str := msg.rawBuffer.toList.take (msg.len - 1)

/-- What programs ask of `InitConnection`. -/
inductive Request
  | registerServer (reg : InitRegisterServer)
  | unregisterServer (name : Chars)
  | getServer (get : InitGetServer)
  | signalFsAvailable
  | queryFramebuffer

/-- The message of a request, where `buffer` is what was in the memory of its buffer. -/
def Request.message (buffer : Vector UInt8 112) : Request → Message
  | .registerServer reg =>
    let name := ofChars reg.name.toList
    { args := [initRegisterServer, reg.endpoint, reg.major, reg.minor]
      rawBuffer := overwrite buffer (name ++ [0])
      len := name.length + 1 }
  | .unregisterServer name =>
    { args := [initUnregisterServer], rawBuffer := overwrite buffer (ofChars name.toList) }
  | .getServer get =>
    let name := ofChars get.name.toList
    { args := [initGetServer, get.major, get.minor]
      rawBuffer := overwrite buffer (name ++ [0])
      len := name.length + 1 }
  | .signalFsAvailable => { args := [initSignalFsAvailable], rawBuffer := buffer }
  | .queryFramebuffer => { args := [initQueryFb], rawBuffer := buffer }

/-! ### The server -/

structure RegisteredService where
  name : Chars
  major : ℕ
  minor : ℕ
  endpoint : ℕ

/-- `registered_services`, the variables of the module startup, and what the handlers share. -/
structure Init where
  registeredServices : List RegisteredService := []
  startup : Startup
  shared : InitQueryFbResponse

section Server

variable (starts : List Attempt → Str → Bool)

/-- `service_register`. -/
def serviceRegister (s : Init) (endpoint : ℕ) (name : Str) (major minor : ℕ) : Init :=
  let service : RegisteredService :=
    { name := overwrite Chars.zero (name.take 79 ++ [0]), major, minor, endpoint }
  -- what the callback returns is not looked at
  { s with
    registeredServices := s.registeredServices ++ [service]
    startup := (serviceStartupCallback starts (ofChars service.name.toList) s.startup).toOption.getD s.startup }

/-- `service_get`. -/
def serviceGet (s : Init) (name : Str) (major minor : ℕ) : Except String ℕ :=
  match s.registeredServices.find? fun service =>
      ofChars service.name.toList = name ∧ service.major = major ∧ service.minor ≥ minor with
  | some service => .ok service.endpoint
  | none => .error "service not found"

/-- `"@fs"`. -/
def fs : Str := [64, 102, 115]

/-- `call_received`, with the arguments of the reply, if there is one that is waited for. -/
def callReceived (s : Init) (msg : Message) : Init × List ℕ :=
  if msg.arg 0 = initRegisterServer then (serviceRegister starts s (msg.arg 1) msg.text (msg.arg 2) (msg.arg 3), [])
  else if msg.arg 0 = initUnregisterServer then (s, [])
  else if msg.arg 0 = initGetServer then
    (s, [(serviceGet s msg.text (msg.arg 1) (msg.arg 2)).toOption.getD (2 ^ 64 - 1)])
  else if msg.arg 0 = initSignalFsAvailable then
    ({ s with startup := (serviceStartupCallback starts fs s.startup).toOption.getD s.startup }, [])
  else if msg.arg 0 = initQueryFb then
    (s, [s.shared.framebufferAddr, s.shared.framebufferWidth, s.shared.framebufferHeight])
  else (s, [])

/-- What a program gets from `InitConnection`. -/
inductive Answer
  | nothing
  | server (response : Except String InitGetServerResponse)
  | framebuffer (response : InitQueryFbResponse)

/-- What `get_server` makes of the reply. -/
def getServerResponse (reply : List ℕ) : Except String InitGetServerResponse :=
  if reply.getD 0 0 = 0 then .error "server not found"
  else .ok { endpoint := reply.getD 0 0, major := reply.getD 1 0, minor := reply.getD 2 0 }

/-- What a program makes of the reply to its request. -/
def Request.answer (reply : List ℕ) : Request → Answer
  | .getServer _ => .server (getServerResponse reply)
  | .queryFramebuffer => .framebuffer ⟨reply.getD 0 0, reply.getD 1 0, reply.getD 2 0⟩
  | _ => .nothing

/-- A request, with what is in memory where its message is built. -/
structure Event where
  request : Request
  buffer : Vector UInt8 112

/-- `init` receives the requests one after the other, and each program gets its answer. -/
def serve : List Event → Init → Init × List Answer
  | [], s => (s, [])
  | e :: es, s =>
    let (s, reply) := callReceived starts s (e.request.message e.buffer)
    let (s, answers) := serve es s
    (s, e.request.answer reply :: answers)

end Server

/-! ### What it should give -/

/-- The services that can be found, by their names, the major version and the least minor version. -/
abbrev Registry := Str → ℕ → ℕ → Option ℕ

/-- A registration adds what was not there. -/
def Registry.register (r : Registry) (name : Str) (major minor endpoint : ℕ) : Registry := fun n M m =>
  (r n M m).or (if n = name ∧ M = major ∧ m ≤ minor then some endpoint else none)

/-- What a program gets that asks for a service. -/
def found : Option ℕ → Except String InitGetServerResponse
  | none => .ok { endpoint := 2 ^ 64 - 1 }
  | some 0 => .error "server not found"
  | some (endpoint + 1) => .ok { endpoint := endpoint + 1 }

/-- What a request does to the registry, -/
def Registry.after (r : Registry) : Request → Registry
  | .registerServer reg => r.register ((ofChars reg.name.toList).take 79) reg.major reg.minor reg.endpoint
  | _ => r

/-- and its answer. -/
def Registry.answer (fb : InitQueryFbResponse) (r : Registry) : Request → Answer
  | .getServer get => .server (found (r (ofChars get.name.toList) get.major get.minor))
  | .queryFramebuffer => .framebuffer fb
  | _ => .nothing

def Registry.serve (fb : InitQueryFbResponse) : List Request → Registry → List Answer
  | [], _ => []
  | q :: qs, r => r.answer fb q :: serve fb qs (r.after q)

/-- The service that a request announces to the module startup. -/
def Request.announced : Request → Option Str
  | .registerServer reg => some ((ofChars reg.name.toList).take 79)
  | .signalFsAvailable => some fs
  | _ => none

/-! ### Names in buffers -/

section Names

variable {n : ℕ} {buffer : Vector UInt8 n} {text : List UInt8}

theorem toList_overwrite (h : text.length ≤ n) :
    (overwrite buffer text).toList = text ++ buffer.toList.drop text.length := by
  apply List.ext_getElem
  · simp [h]
  · intro i hi hi'
    rw [List.getElem_append]
    split_ifs with hlt
    · simp [overwrite, hlt]
    · simp [overwrite, Nat.not_lt.mp hlt]

/-- The characters up to a 0. -/
theorem ofChars_append (text rest : List UInt8) : ofChars (text ++ 0 :: rest) = ofChars text := by
  unfold ofChars
  induction text with
  | nil => rfl
  | cons c text ih =>
    rw [List.cons_append, List.takeWhile_cons, List.takeWhile_cons, ih]

theorem ofChars_take (chars : List UInt8) (k : ℕ) : ofChars ((ofChars chars).take k) = (ofChars chars).take k := by
  apply List.takeWhile_eq_self_iff.mpr
  intro c hc
  have hmem : c ∈ chars.takeWhile (· ≠ 0) := List.mem_of_mem_take hc
  exact List.mem_takeWhile_imp (p := fun c : UInt8 => c ≠ 0) hmem

/-- **A name** that is written into a buffer, with the 0 at its end. -/
theorem ofChars_overwrite (h : text.length < n) : ofChars (overwrite buffer (text ++ [0])).toList = ofChars text := by
  rw [toList_overwrite (by rw [List.length_append, List.length_singleton]; omega), List.append_assoc]
  exact ofChars_append text _

theorem length_ofChars (name : Chars) : (ofChars name.toList).length ≤ 80 := by
  apply (List.takeWhile_prefix _).length_le.trans
  simp

/-- `init` reads the name that was written. -/
theorem text_message {buffer : Vector UInt8 112} {name : Chars} {args : List ℕ} :
    Message.text { args, rawBuffer := overwrite buffer (ofChars name.toList ++ [0]),
                   len := (ofChars name.toList).length + 1 } = ofChars name.toList := by
  have hlength := length_ofChars name
  unfold Message.text
  rw [toList_overwrite (by rw [List.length_append, List.length_singleton]; omega), List.append_assoc]
  exact List.take_left

/-- The name that `get_server` looks for, which is given as an `fc::Str`. -/
theorem ofChars_copyTo (name : Str) : ofChars (copyTo name Chars.zero).toList = ofChars (name.take 79) := by
  unfold copyTo
  split_ifs with hlong
  · exact ofChars_overwrite (by rw [List.length_take]; omega)
  · rw [ofChars_overwrite (by simp; omega), List.take_length, List.take_of_length_le (by omega)]

/-- The name that `service_register` keeps of it. -/
theorem ofChars_stored (name : Chars) : ofChars (overwrite Chars.zero ((ofChars name.toList).take 79 ++ [0])).toList =
    (ofChars name.toList).take 79 := by
  rw [ofChars_overwrite (by rw [List.length_take]; omega), ofChars_take]

end Names

/-! ### The register and the registry -/

section Serve

variable {starts : List Attempt → Str → Bool} {s : Init} {r : Registry}

/-- What `init` finds is what is in the registry. -/
def Represents (s : Init) (r : Registry) : Prop :=
  ∀ name major minor, (serviceGet s name major minor).toOption = r name major minor

/-- **A registration** adds what was not there. -/
theorem represents_register (h : Represents s r) (reg : InitRegisterServer) :
    Represents (serviceRegister starts s reg.endpoint (ofChars reg.name.toList) reg.major reg.minor)
      (r.after (.registerServer reg)) := by
  intro name major minor
  have hr : r.after (.registerServer reg) name major minor = (r name major minor).or
      (if name = (ofChars reg.name.toList).take 79 ∧ major = reg.major ∧ minor ≤ reg.minor then some reg.endpoint
        else none) := rfl
  rw [hr, ← h name major minor]
  unfold serviceGet serviceRegister
  simp only [List.find?_append, List.find?_singleton, ofChars_stored]
  cases s.registeredServices.find? _ with
  | some service => rfl
  | none =>
    simp only [Option.none_or, ge_iff_le, decide_eq_true_eq, eq_comm (a := name), eq_comm (a := major)]
    split_ifs <;> rfl

theorem announce_cons (e : Str) (es : List Str) (t : Startup) :
    announce starts (e :: es) t = announce starts es ((serviceStartupCallback starts e t).toOption.getD t) := by
  rw [announce]
  cases serviceStartupCallback starts e t <;> rfl

theorem found_reply (e : Option ℕ) : getServerResponse [e.getD (2 ^ 64 - 1)] = found e := by
  rcases e with _ | _ | e <;> rfl

/-- What the handler does with a request of each kind. -/
theorem callReceived_register (reg : InitRegisterServer) (buffer : Vector UInt8 112) :
    callReceived starts s (Request.message buffer (.registerServer reg)) =
      (serviceRegister starts s reg.endpoint (ofChars reg.name.toList) reg.major reg.minor, []) := by
  simp [callReceived, Request.message, Message.arg, text_message]

theorem callReceived_get (get : InitGetServer) (buffer : Vector UInt8 112) :
    callReceived starts s (Request.message buffer (.getServer get)) =
      (s, [(serviceGet s (ofChars get.name.toList) get.major get.minor).toOption.getD (2 ^ 64 - 1)]) := by
  simp [callReceived, Request.message, Message.arg, text_message, initRegisterServer, initUnregisterServer,
    initGetServer]

/-- What is the same for the server and the registry, after a request and in its answer. -/
structure Handles (starts : List Attempt → Str → Bool) (s : Init) (r : Registry) (q : Request)
    (result : Init × List ℕ) : Prop where
  represents : Represents result.1 (r.after q)
  answer : q.answer result.2 = r.answer s.shared q
  shared : result.1.shared = s.shared
  startup : result.1.startup = announce starts q.announced.toList s.startup

/-- **A request** is handled as the registry says. -/
theorem callReceived_spec (h : Represents s r) (buffer : Vector UInt8 112) :
    ∀ q : Request, Handles starts s r q (callReceived starts s (q.message buffer))
  | .registerServer reg => by
    rw [callReceived_register]
    refine ⟨represents_register h reg, rfl, rfl, ?_⟩
    simp only [Request.announced, Option.toList_some, announce_cons]
    rw [← ofChars_stored]
    rfl
  | .getServer get => by
    rw [callReceived_get]
    refine ⟨h, ?_, rfl, rfl⟩
    rw [h]
    simp only [Request.answer, Registry.answer, found_reply]
  | .unregisterServer name => ⟨h, rfl, rfl, rfl⟩
  | .signalFsAvailable => by
    refine ⟨h, rfl, rfl, ?_⟩
    simp only [Request.announced, Option.toList_some, announce_cons]
    rfl
  | .queryFramebuffer => ⟨h, rfl, rfl, rfl⟩

theorem announce_append : ∀ (es es' : List Str) (t : Startup),
    announce starts (es ++ es') t = announce starts es' (announce starts es t)
  | [], _, _ => rfl
  | e :: es, es', t => by rw [List.cons_append, announce_cons, announce_cons, announce_append es]

/-- **Requests** one after the other. -/
theorem serve_spec : ∀ (es : List Event) {s : Init} {r : Registry}, Represents s r →
    (serve starts es s).2 = Registry.serve s.shared (es.map Event.request) r ∧
      (serve starts es s).1.startup = announce starts (es.filterMap fun e => e.request.announced) s.startup
  | [], _, _, _ => ⟨rfl, rfl⟩
  | e :: es, s, r, h => by
    have hcall : Handles starts s r e.request (callReceived starts s (e.request.message e.buffer)) :=
      callReceived_spec h e.buffer e.request
    obtain ⟨hanswers, hstartup⟩ := serve_spec es hcall.represents
    constructor
    · rw [List.map_cons, Registry.serve, ← hcall.answer, ← hcall.shared, ← hanswers]
      rfl
    · have hcons : (e :: es).filterMap (fun e => e.request.announced) =
          e.request.announced.toList ++ es.filterMap fun e => e.request.announced := by
        cases h : e.request.announced <;> simp [h]
      rw [hcons, announce_append, ← hcall.startup]
      exact hstartup

/-- The state in which `init` begins to receive. -/
def start (starts : List Attempt → Str → Bool) (config : List ModuleLaunch) (shared : InitQueryFbResponse) : Init :=
  { startup := startupModule starts config {}, shared }

/-- **The service register**, whatever programs ask in whatever order: each gets the
answer of the registry, and the module startup hears of each service. -/
theorem service_answers (config : List ModuleLaunch) (fb : InitQueryFbResponse) (events : List Event) :
    (serve starts events (start starts config fb)).2 =
        Registry.serve fb (events.map Event.request) (fun _ _ _ => none) ∧
      (serve starts events (start starts config fb)).1.startup =
        ModuleStartup.after starts config (events.filterMap fun e => e.request.announced) :=
  serve_spec events (s := start starts config fb) fun _ _ _ => rfl

end Serve

/-! ### The first one that fits -/

section FirstFit

/-- The endpoint that a request registers, if that is a service of this name, major version and minor version. -/
def Request.offers (name : Str) (major minor : ℕ) : Request → Option ℕ
  | .registerServer reg =>
    if name = (ofChars reg.name.toList).take 79 ∧ major = reg.major ∧ minor ≤ reg.minor then some reg.endpoint
    else none
  | _ => none

/-- The endpoint of the first service that was registered and fits. -/
def firstFit (requests : List Request) (name : Str) (major minor : ℕ) : Option ℕ :=
  requests.findSome? (Request.offers name major minor)

variable {starts : List Attempt → Str → Bool}

theorem after_eq (r : Registry) (q : Request) (name : Str) (major minor : ℕ) :
    r.after q name major minor = (r name major minor).or (q.offers name major minor) := by
  cases q with
  | registerServer reg => rfl
  | _ => simp [Registry.after, Request.offers]

theorem foldl_after : ∀ (requests : List Request) (r : Registry) (name : Str) (major minor : ℕ),
    requests.foldl Registry.after r name major minor = (r name major minor).or (firstFit requests name major minor)
  | [], _, _, _, _ => by simp [firstFit]
  | q :: qs, r, name, major, minor => by
    rw [List.foldl_cons, foldl_after qs, after_eq, Option.or_assoc]
    congr 1
    unfold firstFit
    rw [List.findSome?_cons]
    cases q.offers name major minor <;> rfl

theorem getLast_serve (fb : InitQueryFbResponse) (q : Request) : ∀ (requests : List Request) (r : Registry),
    (Registry.serve fb (requests ++ [q]) r).getLast? = some ((requests.foldl Registry.after r).answer fb q)
  | [], _ => rfl
  | q' :: qs, r => by
    rw [List.cons_append, Registry.serve, List.getLast?_cons, getLast_serve fb q qs]
    rfl

/-- What a program gets that asks for a service by `get_server`, after the requests `events`. -/
def ask (starts : List Attempt → Str → Bool) (config : List ModuleLaunch) (fb : InitQueryFbResponse)
    (events : List Event) (name : Str) (major minor : ℕ) (buffer : Vector UInt8 112) : Option Answer :=
  let request := .getServer { name := copyTo name Chars.zero, major, minor }
  (serve starts (events ++ [⟨request, buffer⟩]) (start starts config fb)).2.getLast?

/-- **What is found** is the first service that was registered and fits, where 79 characters
of the names count; and it is found for good. -/
theorem service_found (config : List ModuleLaunch) (fb : InitQueryFbResponse) (events : List Event) (name : Str)
    (major minor : ℕ) (buffer : Vector UInt8 112) :
    let fit := firstFit (events.map Event.request) (ofChars (name.take 79)) major minor
    ask starts config fb events name major minor buffer = some (.server (found fit)) ∧
      (fit.isSome → ∀ later buffer', ask starts config fb (events ++ later) name major minor buffer' =
        ask starts config fb events name major minor buffer) := by
  have hask : ∀ (events : List Event) (buffer : Vector UInt8 112),
      ask starts config fb events name major minor buffer =
        some (.server (found (firstFit (events.map Event.request) (ofChars (name.take 79)) major minor))) := by
    intro events buffer
    unfold ask
    dsimp only
    rw [(service_answers config fb _).1, List.map_append, List.map_singleton, getLast_serve]
    simp only [Registry.answer, foldl_after, ofChars_copyTo, Option.none_or]
  refine ⟨hask events buffer, fun hfit later buffer' => ?_⟩
  obtain ⟨e, he⟩ := Option.isSome_iff_exists.mp hfit
  rw [hask, hask, List.map_append]
  unfold firstFit at he ⊢
  rw [List.findSome?_append, he]
  rfl

end FirstFit

end ServiceRegister
end WingOS
