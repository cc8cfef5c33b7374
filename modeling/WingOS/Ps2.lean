/-
# The PS/2 devices

The decoders of `app/udev/ps2`: `Ps2::Mouse` puts reports of three bytes (four
with a wheel) together, and `Ps2::Ps2Keyboard` reads scan codes, those of the
extended keys after an escape byte. The controller has the bytes of both in one
queue, and its status port says whose the first one is; a byte of the mouse is
`Sum.inl`, one of the keyboard `Sum.inr`.

A decoder gives the devices' own events back, whatever the order in which the
bytes of the two come in. A report whose movement is −256 is read as no
movement, because the sign is only looked at when the low byte is not 0; and the
release of the key 0x60 is the escape byte.

Key definitions: `Mouse.handlePacket`, `Ps2Keyboard.handlePacket`, `hiEvents`,
`MouseReport.code`, `KeyReport.code`.
Key theorems: `mouse_decodes_iff`, `keys_decode_iff`, `reports_decoded_iff`.
-/
import Mathlib.Algebra.Ring.Int.Defs
import Mathlib.Logic.Function.Basic
import WingOS.Lib.Feed

namespace WingOS
namespace Ps2

open Function (update)

/-! ### The decoders -/

/-- `hw::MouseEvent`, without the absolute place, which nobody writes. -/
structure MouseEvent where
  offx : ℤ
  offy : ℤ
  scroll : ℤ
  left : Bool
  right : Bool
  middle : Bool
  deriving DecidableEq

/-- `Ps2::Mouse`. -/
structure Mouse where
  hasWheel : Bool := false
  cycle : ℕ := 0
  events : List MouseEvent := []
  buf : ℕ → BitVec 8 := fun _ => 0

namespace Mouse

/-- The event that the bytes of `buf` describe. -/
def event (m : Mouse) : MouseEvent :=
  let flags := m.buf 0
  let offx : ℤ := (m.buf 1).toNat
  let offy : ℤ := (m.buf 2).toNat
  { offx := if offx ≠ 0 ∧ flags &&& (1#8 <<< 4) ≠ 0#8 then offx - 0x100 else offx
    offy := if offy ≠ 0 ∧ flags &&& (1#8 <<< 5) ≠ 0#8 then offy - 0x100 else offy
    scroll := if m.hasWheel then (m.buf 3).toInt else 0
    left := flags &&& (1#8 <<< 0) ≠ 0#8
    right := flags &&& (1#8 <<< 1) ≠ 0#8
    middle := flags &&& (1#8 <<< 2) ≠ 0#8 }

def handlePacketGroup (m : Mouse) : Mouse :=
  { m with cycle := 0, events := m.events ++ [m.event] }

def handlePacket (m : Mouse) (packet : BitVec 8) : Mouse :=
  match m.cycle with
  | 0 =>
    let m := { m with buf := update m.buf 0 packet }
    if packet &&& 8#8 ≠ 0#8 then { m with cycle := m.cycle + 1 } else m
  | 1 => { m with buf := update m.buf 1 packet, cycle := m.cycle + 1 }
  | 2 =>
    let m := { m with buf := update m.buf 2 packet }
    if m.hasWheel then { m with cycle := m.cycle + 1 } else m.handlePacketGroup
  | 3 => { m with buf := update m.buf 3 packet }.handlePacketGroup
  | _ => { m with cycle := 0 }

end Mouse

/-- `Ps2::Ps2KeyboardEvent`. -/
structure Ps2KeyboardEvent where
  key : BitVec 8
  down : Bool
  deriving DecidableEq

/-- `Ps2::Ps2Keyboard`. -/
structure Ps2Keyboard where
  events : List Ps2KeyboardEvent := []
  escape : Bool := false

/-- What `packet_handle` does with one byte. -/
def Ps2Keyboard.handlePacket (k : Ps2Keyboard) (packet : BitVec 8) : Ps2Keyboard :=
  let down : Bool := packet &&& 0x80#8 = 0#8
  if k.escape then
    { events := k.events ++ [{ key := (packet &&& 0x7f#8) + 0x80#8, down }], escape := false }
  else if packet = 0xE0#8 then { k with escape := true }
  else { k with events := k.events ++ [{ key := packet &&& 0x7f#8, down }] }

/-- `prot::HIEvent`. -/
inductive HIEvent
  | mouse (dx dy : ℤ) (buttons : ℕ)
  | keyboard (keycode : ℕ) (pressed : Bool)
  deriving DecidableEq

/-- The bit of `prot::EventType`. -/
def HIEvent.type : HIEvent → BitVec 32
  | .mouse .. => 1#32 <<< 1
  | .keyboard .. => 1#32 <<< 2

/-- What the loop of `main` makes of a mouse event. -/
def MouseEvent.toHI (e : MouseEvent) : HIEvent :=
  .mouse e.offx e.offy ((if e.left then 1 else 0) ||| (if e.right then 2 else 0) ||| (if e.middle then 4 else 0))

def Ps2KeyboardEvent.toHI (e : Ps2KeyboardEvent) : HIEvent := .keyboard e.key.toNat e.down

/-! ### The decoders as machines -/

/-- One byte of the mouse: the decoder without its event list, and the events that the byte ends. -/
def mouseStep (m : Mouse) (packet : BitVec 8) : Mouse × List MouseEvent :=
  let m := { m with events := [] }.handlePacket packet
  ({ m with events := [] }, m.events)

/-- One byte of the keyboard. -/
def keyboardStep (k : Ps2Keyboard) (packet : BitVec 8) : Ps2Keyboard × List Ps2KeyboardEvent :=
  let k := { k with events := [] }.handlePacket packet
  ({ k with events := [] }, k.events)

/-- The events of an event list come on top of those that are there. -/
theorem handlePacket_mouse (m : Mouse) (packet : BitVec 8) : m.handlePacket packet =
    { (mouseStep m packet).1 with events := m.events ++ (mouseStep m packet).2 } := by
  simp only [mouseStep, Mouse.handlePacket]
  split
  all_goals (try split_ifs) <;> simp [Mouse.handlePacketGroup, Mouse.event]

theorem handlePacket_keyboard (k : Ps2Keyboard) (packet : BitVec 8) : k.handlePacket packet =
    { (keyboardStep k packet).1 with events := k.events ++ (keyboardStep k packet).2 } := by
  simp only [keyboardStep, Ps2Keyboard.handlePacket]
  split_ifs <;> simp

/-- What the bytes of the two devices say, in the order of the bytes that end the events. -/
def decoded (wheel : Bool) (bytes : List (BitVec 8 ⊕ BitVec 8)) :
    (Mouse × Ps2Keyboard) × List (MouseEvent ⊕ Ps2KeyboardEvent) :=
  Lib.feed (Lib.both mouseStep keyboardStep) ({ hasWheel := wheel }, {}) bytes

def toHI : MouseEvent ⊕ Ps2KeyboardEvent → HIEvent
  | .inl e => e.toHI
  | .inr e => e.toHI

/-- The events that clients are to hear of. -/
def hiEvents (wheel : Bool) (bytes : List (BitVec 8 ⊕ BitVec 8)) : List HIEvent := (decoded wheel bytes).2.map toHI
/-! ### What the devices send -/

/-- A report of the mouse. -/
structure MouseReport where
  dx : BitVec 9
  dy : BitVec 9
  scroll : BitVec 8 := 0
  left : Bool := false
  right : Bool := false
  middle : Bool := false
  overflowX : Bool := false
  overflowY : Bool := false
  deriving DecidableEq

namespace MouseReport

/-- The buttons, the bit that is always set, the signs and the overflows. -/
def flags (r : MouseReport) : BitVec 8 :=
  BitVec.ofNat 8 (r.left.toNat + 2 * r.right.toNat + 4 * r.middle.toNat + 8 + 16 * r.dx.msb.toNat +
    32 * r.dy.msb.toNat + 64 * r.overflowX.toNat + 128 * r.overflowY.toNat)

def code (wheel : Bool) (r : MouseReport) : List (BitVec 8) :=
  [r.flags, r.dx.setWidth 8, r.dy.setWidth 8] ++ if wheel then [r.scroll] else []

/-- The event that the report is about. -/
def event (wheel : Bool) (r : MouseReport) : MouseEvent where
  offx := r.dx.toInt
  offy := r.dy.toInt
  scroll := if wheel then r.scroll.toInt else 0
  left := r.left
  right := r.right
  middle := r.middle

end MouseReport

/-- A key that went down or up; `extended` are those with an escape byte. -/
structure KeyReport where
  key : BitVec 7
  extended : Bool := false
  down : Bool := true
  deriving DecidableEq

namespace KeyReport

def code (r : KeyReport) : List (BitVec 8) :=
  (if r.extended then [0xE0#8] else []) ++ [r.key.setWidth 8 ||| if r.down then 0#8 else 0x80#8]

def event (r : KeyReport) : Ps2KeyboardEvent where
  key := r.key.setWidth 8 + if r.extended then 0x80#8 else 0#8
  down := r.down

/-- The release whose code is the escape byte. -/
def clash : KeyReport := { key := 0x60#7, down := false }

end KeyReport

/-! ### The mouse -/

theorem flags_bits (r : MouseReport) :
    r.flags &&& 8#8 ≠ 0#8 ∧ decide (r.flags &&& (1#8 <<< 0) ≠ 0#8) = r.left ∧
      decide (r.flags &&& (1#8 <<< 1) ≠ 0#8) = r.right ∧ decide (r.flags &&& (1#8 <<< 2) ≠ 0#8) = r.middle ∧
      decide (r.flags &&& (1#8 <<< 4) ≠ 0#8) = r.dx.msb ∧ decide (r.flags &&& (1#8 <<< 5) ≠ 0#8) = r.dy.msb := by
  have hall : ∀ l r m sx sy ox oy : Bool,
      let flags := BitVec.ofNat 8 (l.toNat + 2 * r.toNat + 4 * m.toNat + 8 + 16 * sx.toNat + 32 * sy.toNat +
        64 * ox.toNat + 128 * oy.toNat)
      flags &&& 8#8 ≠ 0#8 ∧ decide (flags &&& (1#8 <<< 0) ≠ 0#8) = l ∧
        decide (flags &&& (1#8 <<< 1) ≠ 0#8) = r ∧ decide (flags &&& (1#8 <<< 2) ≠ 0#8) = m ∧
        decide (flags &&& (1#8 <<< 4) ≠ 0#8) = sx ∧ decide (flags &&& (1#8 <<< 5) ≠ 0#8) = sy := by decide
  exact hall r.left r.right r.middle r.dx.msb r.dy.msb r.overflowX r.overflowY

/-- A movement of nine bits, from its low byte and its sign: −256 is lost. -/
theorem offset_eq (d : BitVec 9) {flags : BitVec 8} {mask : BitVec 8} (hsign : decide (flags &&& mask ≠ 0#8) = d.msb) :
    (if (((d.setWidth 8).toNat : ℕ) : ℤ) ≠ 0 ∧ flags &&& mask ≠ 0#8 then (((d.setWidth 8).toNat : ℕ) : ℤ) - 0x100
      else (((d.setWidth 8).toNat : ℕ) : ℤ)) = if d.toInt = -256 then 0 else d.toInt := by
  rw [BitVec.msb_eq_decide] at hsign
  have hmask : flags &&& mask ≠ 0#8 ↔ 2 ^ (9 - 1) ≤ d.toNat := decide_eq_decide.mp hsign
  have hlt := d.isLt
  simp only [hmask, BitVec.toNat_setWidth, BitVec.toInt_eq_toNat_cond]
  split_ifs <;> first | contradiction | omega

/-- A decoder that waits for the first byte of a report. -/
def Mouse.Rests (wheel : Bool) (m : Mouse) : Prop := m.hasWheel = wheel ∧ m.cycle = 0 ∧ m.events = []

/-- What a report is read as. -/
def MouseReport.read (wheel : Bool) (r : MouseReport) : MouseEvent :=
  { r.event wheel with
    offx := if r.dx.toInt = -256 then 0 else r.dx.toInt
    offy := if r.dy.toInt = -256 then 0 else r.dy.toInt }

theorem event_of_buf {m : Mouse} {r : MouseReport} (h0 : m.buf 0 = r.flags) (h1 : m.buf 1 = r.dx.setWidth 8)
    (h2 : m.buf 2 = r.dy.setWidth 8) (h3 : m.hasWheel = true → m.buf 3 = r.scroll) :
    m.event = r.read m.hasWheel := by
  obtain ⟨-, hleft, hright, hmiddle, hsx, hsy⟩ := flags_bits r
  have hx := offset_eq r.dx hsx
  have hy := offset_eq r.dy hsy
  simp only [Mouse.event, MouseReport.read, MouseReport.event, h0, h1, h2, hx, hy, hleft, hright, hmiddle,
    MouseEvent.mk.injEq, and_true, true_and]
  split_ifs with hwheel
  · rw [h3 hwheel]
  · rfl

theorem feed_report (wheel : Bool) (r : MouseReport) (m : Mouse) (hm : m.Rests wheel) :
    (Lib.feed mouseStep m (r.code wheel)).1.Rests wheel ∧
      (Lib.feed mouseStep m (r.code wheel)).2 = [r.read wheel] := by
  obtain ⟨rfl, hcycle, hevents⟩ := hm
  have hsync := (flags_bits r).1
  set buf2 := update (update (update m.buf 0 r.flags) 1 (r.dx.setWidth 8)) 2 (r.dy.setWidth 8) with hbuf2
  by_cases hwheel : m.hasWheel = true
  · have hevent : Mouse.event { m with buf := update buf2 3 r.scroll, cycle := 3, events := [] } =
        r.read m.hasWheel :=
      event_of_buf (by simp [hbuf2]) (by simp [hbuf2]) (by simp [hbuf2]) (by simp)
    simp_all [MouseReport.code, mouseStep, Mouse.handlePacket, Mouse.handlePacketGroup, Mouse.Rests]
  · have hevent : Mouse.event { m with buf := buf2, cycle := 2, events := [] } = r.read m.hasWheel :=
      event_of_buf (by simp [hbuf2]) (by simp [hbuf2]) (by simp [hbuf2]) (fun h => absurd h hwheel)
    simp_all [MouseReport.code, mouseStep, Mouse.handlePacket, Mouse.handlePacketGroup, Mouse.Rests]

/-- **The mouse's reports are read as they are**, in any number, exactly if none moves by −256. -/
theorem mouse_decodes_iff (wheel : Bool) (rs : List MouseReport) :
    (Lib.feed mouseStep { hasWheel := wheel } (rs.flatMap (MouseReport.code wheel))).2 =
        rs.map (MouseReport.event wheel) ↔
      ∀ r ∈ rs, r.dx.toInt ≠ -256 ∧ r.dy.toInt ≠ -256 := by
  have hrest : Mouse.Rests wheel { hasWheel := wheel } := ⟨rfl, rfl, rfl⟩
  rw [(Lib.feed_codes rs (fun r _ m hm => feed_report wheel r m hm) _ hrest).2, List.map_inj_left]
  apply forall₂_congr
  intro r _
  constructor
  · intro h
    simp only [MouseReport.read, MouseReport.event, MouseEvent.mk.injEq] at h
    constructor
    · intro hx
      rw [if_pos hx, hx] at h
      exact absurd h.1 (by decide)
    · intro hy
      rw [if_pos hy, hy] at h
      exact absurd h.2.1 (by decide)
  · rintro ⟨hx, hy⟩
    simp [MouseReport.read, MouseReport.event, hx, hy]

/-! ### The keyboard -/

/-- A decoder that does not wait for an extended key. -/
def Ps2Keyboard.Rests (k : Ps2Keyboard) : Prop := k.escape = false ∧ k.events = []

theorem key_code (r : KeyReport) :
    (r.key.setWidth 8 ||| if r.down then 0#8 else 0x80#8) &&& 0x7f#8 = r.key.setWidth 8 ∧
      decide ((r.key.setWidth 8 ||| if r.down then 0#8 else 0x80#8) &&& 0x80#8 = 0#8) = r.down ∧
      ((r.key.setWidth 8 ||| if r.down then 0#8 else 0x80#8) = 0xE0#8 ↔ r.key = 0x60#7 ∧ r.down = false) := by
  have hall : ∀ (key : BitVec 7) (down : Bool),
      (key.setWidth 8 ||| if down then 0#8 else 0x80#8) &&& 0x7f#8 = key.setWidth 8 ∧
        decide ((key.setWidth 8 ||| if down then 0#8 else 0x80#8) &&& 0x80#8 = 0#8) = down ∧
        ((key.setWidth 8 ||| if down then 0#8 else 0x80#8) = 0xE0#8 ↔ key = 0x60#7 ∧ down = false) := by
    decide
  exact hall r.key r.down

theorem feed_key (r : KeyReport) (hr : r ≠ .clash) (k : Ps2Keyboard) (hk : k.Rests) :
    (Lib.feed keyboardStep k r.code).1.Rests ∧ (Lib.feed keyboardStep k r.code).2 = [r.event] := by
  obtain ⟨hescape, hevents⟩ := hk
  obtain ⟨hkey, hdown, hclash⟩ := key_code r
  by_cases hext : r.extended = true
  · simp [KeyReport.code, KeyReport.event, keyboardStep, Ps2Keyboard.handlePacket, Ps2Keyboard.Rests, hescape, hext,
      hkey, hdown]
  · have hplain : (r.key.setWidth 8 ||| if r.down then 0#8 else 0x80#8) ≠ 0xE0#8 := by
      intro he
      obtain ⟨h60, hup⟩ := hclash.mp he
      apply hr
      rcases r with ⟨key, extended, down⟩
      simp_all [KeyReport.clash]
    simp [KeyReport.code, KeyReport.event, keyboardStep, Ps2Keyboard.handlePacket, Ps2Keyboard.Rests, hescape, hext,
      hkey, hdown, hplain]
/-- After an escape byte the next event is that of an extended key. -/
theorem feed_escape {k : Ps2Keyboard} (hk : k.escape = true) (bytes : List (BitVec 8)) :
    ∀ e ∈ (Lib.feed keyboardStep k bytes).2.head?, e.key &&& 0x80#8 ≠ 0#8 := by
  rcases bytes with _ | ⟨b, bytes⟩
  · simp
  · have hkey : ∀ b : BitVec 8, ((b &&& 0x7f#8) + 0x80#8) &&& 0x80#8 ≠ 0#8 := by decide
    simp [keyboardStep, Ps2Keyboard.handlePacket, hk, hkey]

/-- **The keys are read as they are**, in any number, exactly if none of them is released with the code that is
the escape byte. -/
theorem keys_decode_iff (rs : List KeyReport) : ∀ k : Ps2Keyboard, k.Rests →
    ((Lib.feed keyboardStep k (rs.flatMap KeyReport.code)).2 = rs.map KeyReport.event ↔ KeyReport.clash ∉ rs) := by
  induction rs with
  | nil => simp
  | cons r rs ih =>
    intro k hk
    rw [List.flatMap_cons, Lib.feed_append, List.map_cons]
    by_cases hr : r = .clash
    · -- the release is taken for an escape byte, and what follows is no plain key
      subst hr
      have hcode : Lib.feed keyboardStep k KeyReport.clash.code = ({ escape := true }, []) := by
        simp [KeyReport.code, KeyReport.clash, keyboardStep, Ps2Keyboard.handlePacket, hk.1]
      have hfirst := feed_escape (k := { escape := true }) rfl (rs.flatMap KeyReport.code)
      simp only [hcode, List.nil_append, List.mem_cons, true_or, not_true_eq_false, iff_false]
      intro hall
      rw [hall] at hfirst
      exact hfirst KeyReport.clash.event rfl (by decide)
    · obtain ⟨hrest, hout⟩ := feed_key r hr k hk
      rw [hout, List.singleton_append, List.cons.injEq, List.mem_cons, not_or]
      simp [ih _ hrest, Ne.symm hr]

/-! ### Both on one queue -/

/-- **The devices' reports come through.** Whatever the order in which the bytes of the mouse's and the
keyboard's reports come in, both are read as they are exactly if no movement is −256 and no key is released with
the escape byte. -/
theorem reports_decoded_iff (wheel : Bool) (mice : List MouseReport) (keys : List KeyReport)
    (bytes : List (BitVec 8 ⊕ BitVec 8)) (hmice : Lib.lefts bytes = mice.flatMap (MouseReport.code wheel))
    (hkeys : Lib.rights bytes = keys.flatMap KeyReport.code) :
    (Lib.lefts (decoded wheel bytes).2 = mice.map (MouseReport.event wheel) ∧
        Lib.rights (decoded wheel bytes).2 = keys.map KeyReport.event) ↔
      (∀ r ∈ mice, r.dx.toInt ≠ -256 ∧ r.dy.toInt ≠ -256) ∧ KeyReport.clash ∉ keys := by
  rw [decoded, (Lib.feed_left bytes _).2, (Lib.feed_right bytes _).2, hmice, hkeys]
  exact and_congr (mouse_decodes_iff wheel mice) (keys_decode_iff keys {} ⟨rfl, rfl⟩)

/-- A click that moves to the left, between the two bytes of the right arrow. -/
theorem reports_decoded_interleaved :
    Lib.lefts (decoded false [.inr 0xE0#8, .inl 0x19#8, .inl 0xFF#8, .inl 0#8, .inr 0x4D#8]).2 =
        [{ offx := -1, offy := 0, scroll := 0, left := true, right := false, middle := false }] ∧
      Lib.rights (decoded false [.inr 0xE0#8, .inl 0x19#8, .inl 0xFF#8, .inl 0#8, .inr 0x4D#8]).2 =
        [{ key := 0xCD#8, down := true }] :=
  (reports_decoded_iff false [{ dx := 0x1FF#9, dy := 0#9, left := true }] [{ key := 0x4D#7, extended := true }] _
    (by decide) (by decide)).mpr ⟨by decide, by decide⟩

end Ps2
end WingOS
