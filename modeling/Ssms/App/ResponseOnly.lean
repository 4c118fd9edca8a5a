import Ssms.App.HttpConn
import Mathlib.Tactic.SplitIfs

/-!
# The owner that drops the bodies (`SrsResponseOnlyHttpConn`, `srs_app_http_conn.cpp`)

The loop is that of `SrsHttpConn`, and this owner answers its calls. Of the parser and the readers:
`content_length()` is -1 for a chunked body and for no body, `eof()` is true when all of a body has
been read, and a read that succeeds takes between one byte and the 4096 that are asked for, of those
that are left. The served handler does not read the body. `log` is the history of the run: at each
parse, the message before it and the bytes of its body that are not read. `set_https` and
`manager->remove` do not touch a body and are left out.

* `drained_iff`: at each parse the body of the message before is read, in runs where no message
  that another parse follows has a chunked body with bytes in it; `chunked_not_drained` is a run
  where one has.
-/

namespace Ssms.App

open Ssms.Kernel Ssms.Lib.Hoare

/-- The body of a message and its bytes. -/
inductive Body where
  | contentLength (n : Nat)
  | chunked (n : Nat)
  | none
  deriving DecidableEq

namespace Body

/-- The bytes of the body. -/
def size : Body → Nat
  | .contentLength n | .chunked n => n
  | .none => 0

/-- `content_length()`. -/
def length : Body → Int
  | .contentLength n => n
  | .chunked _ | .none => -1

end Body

/-- What the readers of a connection do with so many bytes left. -/
structure BodyReader (ω : Type) where
  read : Nat → Answer ω Nat
  progress : ∀ {left env n env'}, 0 < left → read left env = (.ok n, env') →
    0 < n ∧ n ≤ 4096 ∧ n ≤ left

/-- `SrsResponseOnlyHttpConn`, with what its connection and its readers get from outside. -/
structure SrsResponseOnlyHttpConn (ω R Q : Type) where
  conn : SrsHttpConn ω R Q
  ssl : Option (Answer ω Unit)
  reader : BodyReader ω
  body : R → Body

namespace SrsResponseOnlyHttpConn

/-- The world outside, the message that was parsed last with the bytes left of its body, and the
history. -/
structure Wire (ω R : Type) where
  outside : ω
  message : Option R
  left : Nat
  log : List (R × Nat)

variable {ω R Q : Type}

/-- A call that does not touch the body. -/
def quiet {α : Type} (answer : Answer ω α) : Answer (Wire ω R) α := fun w =>
  let (a, outside) := answer w.outside
  (a, { w with outside := outside })

/-- `parser->parse_message`. -/
def parseMessage (c : SrsResponseOnlyHttpConn ω R Q) : Answer (Wire ω R) (Option R) := fun w =>
  let log := w.log ++ (w.message.map (·, w.left)).toList
  match c.conn.parser.parseMessage w.outside with
  | (.ok (some r), outside) => (.ok (some r), ⟨outside, some r, (c.body r).size, log⟩)
  | (a, outside) => (a, { w with outside := outside, log := log })

/-- `br->eof()`. -/
def eof (w : Wire ω R) : Bool := w.left = 0

/-- `br->read(body, 4096, NULL)`. -/
def read (c : SrsResponseOnlyHttpConn ω R Q) : Answer (Wire ω R) Unit := fun w =>
  match c.reader.read w.left w.outside with
  | (.ok n, outside) => (.ok (), { w with outside := outside, left := w.left - n })
  | (.error e, outside) => (.error e, { w with outside := outside })

/-- The loop of `on_http_message`; a pass reads a byte at least. -/
def drain (c : SrsResponseOnlyHttpConn ω R Q) : Nat → Answer (Wire ω R) Unit
  | 0, w => (.ok (), w)
  | fuel + 1, w =>
    if eof w then (.ok (), w)
    else match c.read w with
      | (.ok (), w) => drain c fuel w
      | (.error e, w) => (.error (e.wrap "read response" []), w)

/-- `on_start`. -/
def onStart (c : SrsResponseOnlyHttpConn ω R Q) : Answer ω Unit := fun env =>
  match c.ssl with
  | none => (.ok (), env)
  | some handshake => match handshake env with
    | (.ok (), env) => (.ok (), env)
    | (.error e, env) => (.error (e.wrap "handshake" []), env)

/-- `on_http_message`. -/
def onHttpMessage (c : SrsResponseOnlyHttpConn ω R Q) (r : R) : Answer (Wire ω R) Unit := fun w =>
  if (c.body r).length = -1 then (.ok (), w)
  else c.drain w.left w

/-- `on_message_done`. -/
def onMessageDone (_ : R) : Answer (Wire ω R) Unit := fun w => (.ok (), w)

/-- `on_conn_done`. -/
def onConnDone (r0 : Except SrsCplxError Unit) : Answer (Wire ω R) Unit := fun w => (r0, w)

/-- The connection, with this owner as its handler. -/
def connection (c : SrsResponseOnlyHttpConn ω R Q) : SrsHttpConn (Wire ω R) R Q where
  parser := ⟨quiet c.conn.parser.initializeParser, c.parseMessage⟩
  cors r := quiet (c.conn.cors r)
  handler := ⟨quiet c.onStart, c.onHttpMessage, onMessageDone, onConnDone⟩
  trd := quiet c.conn.trd
  ip := c.conn.ip
  isKeepAlive r w :=
    let (alive, outside) := c.conn.isKeepAlive r w.outside
    (alive, { w with outside := outside })
  toRequest := c.conn.toRequest
  srsErrorDesc := c.conn.srsErrorDesc

/-! ## What is left of a body -/

/-- The bytes that this owner leaves. -/
def leftover (c : SrsResponseOnlyHttpConn ω R Q) (r : R) : Nat :=
  if (c.body r).length = -1 then (c.body r).size else 0

theorem drain_spec (c : SrsResponseOnlyHttpConn ω R Q) {fuel : Nat} {w : Wire ω R}
    (h : w.left ≤ fuel) :
    (∃ outside, c.drain fuel w = (.ok (), { w with outside := outside, left := 0 })) ∨
      ∃ e w', c.drain fuel w = (.error e, w') ∧ w'.log = w.log := by
  induction fuel generalizing w with
  | zero =>
    refine .inl ⟨w.outside, ?_⟩
    rw [drain, ← Nat.le_zero.mp h]
  | succ fuel ih =>
    unfold drain
    by_cases hleft : w.left = 0
    · refine .inl ⟨w.outside, ?_⟩
      rw [if_pos (by simpa [eof] using hleft), ← hleft]
    · rw [if_neg (by simpa [eof] using hleft)]
      unfold read
      cases hread : c.reader.read w.left w.outside with
      | mk a outside =>
        cases a with
        | error e => exact .inr ⟨_, _, rfl, rfl⟩
        | ok n =>
          have hn := c.reader.progress (by omega) hread
          have hle : w.left - n ≤ fuel := by omega
          exact ih (w := ⟨outside, w.message, w.left - n, w.log⟩) hle

/-- At each parse, this owner's leftovers. -/
def LogOk (c : SrsResponseOnlyHttpConn ω R Q) (w : Wire ω R) : Prop :=
  ∀ p ∈ w.log, p.2 = c.leftover p.1

/-- `left` bytes are left of the body of the last message. -/
def Left (c : SrsResponseOnlyHttpConn ω R Q) (left : R → Nat) (w : Wire ω R) : Prop :=
  c.LogOk w ∧ ∀ r, w.message = some r → w.left = left r

theorem leftover_eq_zero_iff (c : SrsResponseOnlyHttpConn ω R Q) (r : R) :
    c.leftover r = 0 ↔ ∀ n, c.body r = .chunked n → n = 0 := by
  unfold leftover
  cases c.body r <;> simp [Body.length, Body.size]

/-! ## One pass of the loop -/

/-- What a call makes of the wire. -/
def Keeps {α : Type} (c : SrsResponseOnlyHttpConn ω R Q) (P : Wire ω R → Prop)
    (answer : Answer (Wire ω R) α) (A : α → Wire ω R → Prop) : Prop :=
  ∀ w, P w → match answer w with
    | (.ok a, w') => A a w'
    | (.error _, w') => c.LogOk w'

section

variable {c : SrsResponseOnlyHttpConn ω R Q} {α : Type} {P : Wire ω R → Prop}

theorem Keeps.ask {answer : Answer (Wire ω R) α} {A : α → Wire ω R → Prop}
    {call : Option α → SrsHttpConn.Call R} (h : c.Keeps P answer A) :
    Triple (fun w : SrsHttpConn.World (Wire ω R) R Q => P w.env) (SrsHttpConn.ask call answer)
      (fun a w => A a w.env) (fun _ w => c.LogOk w.env) := by
  intro w hw
  have hanswer := h w.env hw
  unfold SrsHttpConn.ask
  rcases heq : answer w.env with ⟨a | e, env⟩
  · rw [heq] at hanswer
    exact hanswer
  · rw [heq] at hanswer
    exact hanswer

theorem keeps_quiet (answer : Answer ω α) (left : R → Nat) :
    c.Keeps (c.Left left) (quiet answer) (fun _ => c.Left left) := by
  intro w hw
  unfold quiet
  rcases answer w.outside with ⟨a | e, outside⟩
  · exact hw.1
  · exact hw

theorem keeps_parseMessage :
    c.Keeps (c.Left c.leftover) c.parseMessage (fun req w => c.LogOk w ∧ ∀ r, req = some r →
      w.message = some r ∧ c.Left (fun r => (c.body r).size) w) := by
  intro w hw
  have hlog : ∀ p ∈ w.log ++ (w.message.map (·, w.left)).toList, p.2 = c.leftover p.1 := by
    intro p hp
    rcases List.mem_append.mp hp with hp | hp
    · exact hw.1 p hp
    · cases hmessage : w.message with
      | none => simp [hmessage] at hp
      | some r =>
        obtain rfl : p = (r, w.left) := by simpa [hmessage] using hp
        exact hw.2 r hmessage
  unfold parseMessage
  rcases c.conn.parser.parseMessage w.outside with ⟨e | req, outside⟩
  · exact hlog
  · cases req with
    | none => exact ⟨hlog, fun r hr => by cases hr⟩
    | some r =>
      refine ⟨hlog, fun r' hr => ?_⟩
      cases hr
      exact ⟨rfl, hlog, fun r' hr => by cases hr; rfl⟩

theorem keeps_onHttpMessage (r : R) :
    c.Keeps (fun w => w.message = some r ∧ c.Left (fun r => (c.body r).size) w)
      (c.onHttpMessage r) (fun _ => c.Left c.leftover) := by
  rintro w ⟨hmessage, hlog, hleft⟩
  have hother : ∀ r', w.message = some r' → r' = r := by simp [hmessage]
  unfold onHttpMessage
  split_ifs with hlength
  · refine ⟨hlog, fun r' hr' => ?_⟩
    rw [hother r' hr', leftover, if_pos hlength]
    exact hleft r hmessage
  · rcases c.drain_spec (Nat.le_refl w.left) with ⟨outside, hdrain⟩ | ⟨e, w', hdrain, hlog'⟩
    · rw [hdrain]
      refine ⟨hlog, fun r' hr' => ?_⟩
      rw [hother r' hr', leftover, if_neg hlength]
    · rw [hdrain]
      intro p hp
      exact hlog p (hlog' ▸ hp)

end

/-- **A pass leaves no more of a body than this owner's leftovers.** -/
theorem processOne_left (c : SrsResponseOnlyHttpConn ω R Q) (reqId : Nat) :
    Triple (fun w => c.Left c.leftover w.env) (c.connection.processOne reqId)
      (fun _ w => c.Left c.leftover w.env) (fun _ w => c.LogOk w.env) := by
  apply SrsHttpConn.processOne_rule
    (B := fun r w => w.env.message = some r ∧ c.Left (fun r => (c.body r).size) w.env)
    (F := fun _ w => c.Left c.leftover w.env)
  case pull => exact (keeps_quiet c.conn.trd c.leftover).ask
  case parseMessage => exact keeps_parseMessage.ask
  case null => exact fun w h => h.1
  case request => exact fun req w h => h.2 req rfl
  case onHttpMessage => exact fun req => (keeps_onHttpMessage req).ask
  case serveHttp => exact fun req => (keeps_quiet (c.conn.cors req) c.leftover).ask
  case onMessageDone => exact fun req w h => h
  case isKeepAlive => exact fun req w h => h
  case wrap => exact fun f fmt args w h => h

/-! ## Whole runs -/

/-- Where `process_requests` is when it returns, or after so many passes. -/
def reached (c : SrsResponseOnlyHttpConn ω R Q) (outside : ω) (passes : Nat) : Wire ω R :=
  match c.connection.processRequests passes ⟨⟨outside, none, 0, []⟩, none, []⟩ with
  | .ok _ w | .error _ w => w.env

theorem logOk_reached (c : SrsResponseOnlyHttpConn ω R Q) (outside : ω) (passes : Nat) :
    c.LogOk (c.reached outside passes) := by
  have hspec : Triple (fun w => c.Left c.leftover w.env) (c.connection.processRequests passes)
      (fun _ w => c.LogOk w.env) (fun _ w => c.LogOk w.env) := by
    refine Triple.loop (fun n => ?_) (fun w h => h.1) passes 0
    refine (c.processOne_left n).weaken (fun _ h => h) (fun again w h => ?_) fun _ _ h => h
    cases again with
    | true => exact h
    | false => exact h.1
  have hstart : c.Left c.leftover (⟨outside, none, 0, []⟩ : Wire ω R) :=
    ⟨by simp [LogOk], by simp⟩
  have hend := hspec ⟨⟨outside, none, 0, []⟩, none, []⟩ hstart
  unfold reached
  cases hrun : c.connection.processRequests passes ⟨⟨outside, none, 0, []⟩, none, []⟩ with
  | ok a w =>
    rw [hrun] at hend
    exact hend
  | error f w =>
    rw [hrun] at hend
    exact hend

/-- **At each parse the body of the message before is read**, in runs where no message that another
parse follows has a chunked body with bytes in it. -/
theorem drained_iff (c : SrsResponseOnlyHttpConn ω R Q) (outside : ω) (passes : Nat) :
    (∀ p ∈ (c.reached outside passes).log, p.2 = 0) ↔
      ∀ p ∈ (c.reached outside passes).log, ∀ n, c.body p.1 = .chunked n → n = 0 := by
  have hlog := c.logOk_reached outside passes
  constructor
  · intro h p hp
    rw [← c.leftover_eq_zero_iff, ← hlog p hp]
    exact h p hp
  · intro h p hp
    rw [hlog p hp, c.leftover_eq_zero_iff]
    exact h p hp

/-- A client that sends chunked bodies of five bytes. -/
def chunkedClient : SrsResponseOnlyHttpConn Unit Body Unit where
  conn :=
    { parser := ⟨fun _ => (.ok (), ()), fun _ => (.ok (some (.chunked 5)), ())⟩
      cors := fun _ _ => (.ok (), ())
      handler := ⟨fun _ => (.ok (), ()), fun _ _ => (.ok (), ()), fun _ _ => (.ok (), ()),
        fun r0 _ => (r0, ())⟩
      trd := fun _ => (.ok (), ())
      ip := []
      isKeepAlive := fun _ _ => (true, ())
      toRequest := fun _ => ()
      srsErrorDesc := fun _ => [] }
  ssl := none
  reader :=
    { read := fun left _ => (.ok (min 4096 left), ())
      progress := fun hleft h => by
        cases h
        omega }
  body := id

/-- The second message is parsed with five bytes left of the first. -/
theorem chunked_not_drained : (chunkedClient.reached () 2).log = [(.chunked 5, 5)] ∧
    ¬ ∀ p ∈ (chunkedClient.reached () 2).log, p.2 = 0 := by
  decide +kernel

end SrsResponseOnlyHttpConn

end Ssms.App
