import Ssms.Kernel.Error
import Ssms.Lib.Hoare
import Ssms.Lib.Run
import Mathlib.Data.List.Induction
import Mathlib.Data.List.Infix

/-!
# The life cycle of an HTTP connection (`SrsHttpConn`, `srs_app_http_conn.cpp`)

The parser, the coroutine, the owner, the CORS mux and the messages are parameters over a state `ω`
of the world outside: each call gets an answer from that state and changes it, so that a run can be
answered in every way. `trace` is the history of these calls and no part of the program. What cannot
fail and answers nothing is left out (`set_recv_timeout`, `set_connection`, the logs), and so is the
response writer, which is passed on and not looked at. `req_id` does not overflow.

* `cycle_lifeCycle`: `cycle` that comes back returns success, its last call and no other is
  `on_conn_done`, and the calls before it are a `LifeCycle` whose outcome `on_conn_done` is given.
-/

namespace Ssms.App

open Ssms.Kernel Ssms.Lib.Hoare Ssms.Lib.Run

/-- `ERROR_SUCCESS`. -/
def errorSuccess : Int := 0

/-- A call outside: an error or an answer. -/
abbrev Answer (ω α : Type) := ω → Except SrsCplxError α × ω

/-- `SrsHttpParser`; a message can be null. -/
structure SrsHttpParser (ω R : Type) where
  initializeParser : Answer ω Unit
  parseMessage : Answer ω (Option R)

/-- `ISrsHttpConnOwner`. -/
structure ISrsHttpConnOwner (ω R : Type) where
  onStart : Answer ω Unit
  onHttpMessage : R → Answer ω Unit
  onMessageDone : R → Answer ω Unit
  onConnDone : Except SrsCplxError Unit → Answer ω Unit

/-- `SrsHttpConn`, with what it is told by a message and by an error. -/
structure SrsHttpConn (ω R Q : Type) where
  parser : SrsHttpParser ω R
  cors : R → Answer ω Unit
  handler : ISrsHttpConnOwner ω R
  trd : Answer ω Unit
  ip : Bytes
  isKeepAlive : R → ω → Bool × ω
  toRequest : R → Q
  srsErrorDesc : SrsCplxError → Bytes

namespace SrsHttpConn

/-- A call of the connection, with its argument or answer. -/
inductive Call (R : Type) where
  | initializeParser
  | onStart
  | pull
  | parseMessage (req : Option R)
  | onHttpMessage (req : R)
  | serveHttp (req : R)
  | onMessageDone (req : R)
  | isKeepAlive (req : R) (alive : Bool)
  | onConnDone (r0 : Except SrsCplxError Unit)

/-- A call and the error it returned. -/
structure Event (R : Type) where
  call : Call R
  failure : Option SrsCplxError

/-- The world outside, `last_req` and the history. -/
structure World (ω R Q : Type) where
  env : ω
  lastReq : Option Q
  trace : List (Event R)

/-- A run of the connection. -/
abbrev Serving (ω R Q : Type) := EStateM Fault (World ω R Q)

variable {ω R Q : Type}

/-- Make a call. -/
def ask {α : Type} (call : Option α → Call R) (answer : Answer ω α) : Serving ω R Q α := fun w =>
  match answer w.env with
  | (.ok a, env) => .ok a { w with env := env, trace := w.trace ++ [⟨call (some a), none⟩] }
  | (.error e, env) =>
    .error (.error e) { w with env := env, trace := w.trace ++ [⟨call none, some e⟩] }

/-- `if ((err = m) != srs_success) return srs_error_wrap(err, …)`. -/
def wrapping {α : Type} (fmt : String) (args : List MsgArg) (m : Serving ω R Q α) :
    Serving ω R Q α :=
  m.adaptExcept (Fault.wrap fmt args)

/-- `err = m`. -/
def result (m : Serving ω R Q Unit) : Serving ω R Q (Except SrsCplxError Unit) := fun w =>
  match m w with
  | .ok () w => .ok (.ok ()) w
  | .error (.error e) w => .ok (.error e) w
  | .error f w => .error f w

/-- `return err`. -/
def ret (err : Except SrsCplxError Unit) : Serving ω R Q Unit :=
  match err with
  | .ok () => pure ()
  | .error e => throw (.error e)

/-- `srs_assert(req)`. -/
def srsAssert (req : Option R) : Serving ω R Q R :=
  match req with
  | some req => pure req
  | none => throw .assertFailed

/-- `srs_freep(*preq)`, and what `*preq` is then. -/
def setLastReq (preq : Option Q) : Serving ω R Q Unit := modify fun w => { w with lastReq := preq }

/-- `srs_freep(err)`, which leaves a null pointer. -/
def srsFreep (_ : Except SrsCplxError Unit) : Except SrsCplxError Unit := .ok ()

/-- `srs_error_wrap(err, …)` of an error that may be null. -/
def wrapError (err : Except SrsCplxError Unit) (fmt : String) (args : List MsgArg) :
    Except SrsCplxError Unit :=
  match err with
  | .ok () => .error (.new errorSuccess fmt args)
  | .error e => .error (e.wrap fmt args)

/-- `req->is_keep_alive()`. -/
def askKeepAlive (c : SrsHttpConn ω R Q) (req : R) : Serving ω R Q Bool := fun w =>
  let (alive, env) := c.isKeepAlive req w.env
  .ok alive { w with env := env, trace := w.trace ++ [⟨.isKeepAlive req alive, none⟩] }

/-- `process_request`. -/
def processRequest (c : SrsHttpConn ω R Q) (r : R) : Serving ω R Q Unit :=
  wrapping "mux serve" [] (ask (fun _ => .serveHttp r) (c.cors r))

/-- One pass of the loop of `process_requests`, and whether there is another one. -/
def processOne (c : SrsHttpConn ω R Q) (reqId : Nat) : Serving ω R Q Bool := do
  wrapping "pull" [] (ask (fun _ => .pull) c.trd)
  let req ← wrapping "parse message" []
    (ask (fun req => .parseMessage req.join) c.parser.parseMessage)
  let req ← srsAssert req
  setLastReq (some (c.toRequest req))
  wrapping "on http message" [] (ask (fun _ => .onHttpMessage req) (c.handler.onHttpMessage req))
  wrapping "process request=%d" [.int reqId] (c.processRequest req)
  wrapping "on message done" [] (ask (fun _ => .onMessageDone req) (c.handler.onMessageDone req))
  c.askKeepAlive req

/-- `process_requests`. -/
def processRequests (c : SrsHttpConn ω R Q) (fuel : Nat) : Serving ω R Q Unit :=
  repeatWhile .outOfFuel c.processOne fuel 0

/-- `on_disconnect`. -/
def onDisconnect (_ : Option Q) : Except SrsCplxError Unit := .ok ()

/-- `do_cycle`. -/
def doCycle (c : SrsHttpConn ω R Q) (fuel : Nat) : Serving ω R Q Unit := do
  wrapping "init parser for %s" [.str (cStr c.ip)]
    (ask (fun _ => .initializeParser) c.parser.initializeParser)
  wrapping "start" [] (ask (fun _ => .onStart) c.handler.onStart)
  let err ← result (c.processRequests fuel)
  let w ← get
  match onDisconnect w.lastReq with
  | .ok () => ret err
  | .error r0 => ret (wrapError err "on disconnect %s" [.str (cStr (c.srsErrorDesc r0))])

/-- `cycle`. -/
def cycle (c : SrsHttpConn ω R Q) (fuel : Nat) : Serving ω R Q Unit := do
  let r0 ← result (c.doCycle fuel)
  let err ← result (ask (fun _ => .onConnDone r0) (c.handler.onConnDone r0))
  match err with
  | .ok () => ret err
  | .error e => if e.errorCode = errorSuccess then ret (srsFreep err) else ret (.ok ())

/-! ## One pass of the loop -/

/-- `srs_assert` lets pass what is not null. -/
theorem srsAssert_spec {A : Option R → World ω R Q → Prop} {E : Fault → World ω R Q → Prop}
    (hnull : ∀ w, A none w → E .assertFailed w) (req : Option R) :
    Triple (A req) (srsAssert req) (fun req => A (some req)) E := by
  cases req with
  | some req => exact Triple.ret fun w h => h
  | none => exact Triple.raise hnull

/-- **A rule for a pass**: what each call is assumed and promised. -/
theorem processOne_rule {c : SrsHttpConn ω R Q} {reqId : Nat} {P P' : World ω R Q → Prop}
    {A : Option R → World ω R Q → Prop} {B C D F : R → World ω R Q → Prop}
    {Q' : Bool → World ω R Q → Prop} {E : Fault → World ω R Q → Prop}
    (pull : Triple P (ask (fun _ => .pull) c.trd) (fun _ => P') E)
    (parseMessage : Triple P' (ask (fun req => .parseMessage req.join) c.parser.parseMessage) A E)
    (null : ∀ w, A none w → E .assertFailed w)
    (request : ∀ req w, A (some req) w → B req { w with lastReq := some (c.toRequest req) })
    (onHttpMessage : ∀ req, Triple (B req)
      (ask (fun _ => .onHttpMessage req) (c.handler.onHttpMessage req)) (fun _ => C req) E)
    (serveHttp : ∀ req, Triple (C req) (ask (fun _ => .serveHttp req) (c.cors req))
      (fun _ => D req) E)
    (onMessageDone : ∀ req, Triple (D req)
      (ask (fun _ => .onMessageDone req) (c.handler.onMessageDone req)) (fun _ => F req) E)
    (isKeepAlive : ∀ req, Triple (F req) (c.askKeepAlive req) Q' E)
    (wrap : ∀ f fmt args w, E f w → E (f.wrap fmt args) w) :
    Triple P (c.processOne reqId) Q' E := by
  have hwrap : ∀ {α : Type} {m : Serving ω R Q α} {P Q'} {fmt args}, Triple P m Q' E →
      Triple P (wrapping fmt args m) Q' E := fun h => h.adapt fun f w hf => wrap f _ _ w hf
  unfold processOne processRequest
  refine (hwrap pull).bind (fun _ _ h => h) fun _ => ?_
  refine (hwrap parseMessage).bind (fun _ _ h => h) fun req => ?_
  refine (srsAssert_spec null req).bind (fun _ _ h => h) fun req => ?_
  refine (Triple.update (Q := fun _ => B req) (request req)).bind (fun _ _ h => h) fun _ => ?_
  refine (hwrap (onHttpMessage req)).bind (fun _ _ h => h) fun _ => ?_
  refine (hwrap (hwrap (serveHttp req))).bind (fun _ _ h => h) fun _ => ?_
  refine (hwrap (onMessageDone req)).bind (fun _ _ h => h) fun _ => ?_
  exact isKeepAlive req

/-! ### Its calls -/

/-- Calls without an error. -/
def succeeded (calls : List (Call R)) : List (Event R) := calls.map (⟨·, none⟩)

theorem succeeded_append (cs ds : List (Call R)) :
    succeeded (cs ++ ds) = succeeded cs ++ succeeded ds := List.map_append

/-- So far the calls `cs` were made, all without an error. -/
def Made (cs : List (Call R)) (w : World ω R Q) : Prop := w.trace = succeeded cs

/-- The calls for a request. -/
def exchange (alive : Bool) (req : R) : List (Call R) :=
  [.pull, .parseMessage (some req), .onHttpMessage req, .serveHttp req, .onMessageDone req,
    .isKeepAlive req alive]

/-- The calls of a pass that fails: those that succeed and the one that does not. -/
inductive CutShort : List (Call R) → Call R → Prop
  | pull : CutShort [] .pull
  | parseMessage : CutShort [.pull] (.parseMessage none)
  | onHttpMessage (req : R) : CutShort [.pull, .parseMessage (some req)] (.onHttpMessage req)
  | serveHttp (req : R) :
    CutShort [.pull, .parseMessage (some req), .onHttpMessage req] (.serveHttp req)
  | onMessageDone (req : R) :
    CutShort [.pull, .parseMessage (some req), .onHttpMessage req, .serveHttp req]
      (.onMessageDone req)

/-- After the calls `cs`, the call `last` failed, and the run with it. -/
def FailedAt (cs : List (Call R)) (last : Call R) (f : Fault) (w : World ω R Q) : Prop :=
  ∃ e g, f = .error e ∧ e.errorCode = g.errorCode ∧ w.trace = succeeded cs ++ [⟨last, some g⟩]

theorem made_concat {cs ds : List (Call R)} {k : Call R} {w : World ω R Q}
    (h : w.trace = succeeded (cs ++ ds) ++ [⟨k, none⟩]) : Made (cs ++ (ds ++ [k])) w := by
  rw [Made, h, ← List.append_assoc, succeeded_append _ [k]]
  rfl

theorem ask_spec {α : Type} {call : Option α → Call R} {answer : Answer ω α}
    {t : List (Event R)} :
    Triple (fun w : World ω R Q => w.trace = t) (ask call answer)
      (fun a w => w.trace = t ++ [⟨call (some a), none⟩])
      (fun f w => ∃ e, f = .error e ∧ w.trace = t ++ [⟨call none, some e⟩]) := by
  rintro w rfl
  unfold ask
  rcases answer w.env with ⟨a | e, env⟩
  · exact ⟨_, rfl, rfl⟩
  · rfl

/-- A call after successful ones. -/
theorem ask_made {α : Type} {call : Option α → Call R} {answer : Answer ω α}
    (cs ds : List (Call R)) :
    Triple (Made (cs ++ ds)) (ask call answer : Serving ω R Q α)
      (fun a => Made (cs ++ (ds ++ [call (some a)]))) (FailedAt (cs ++ ds) (call none)) := by
  refine ask_spec.weaken (fun _ h => h) (fun _ _ h => made_concat h) ?_
  rintro _ w ⟨e, rfl, h⟩
  exact ⟨e, e, rfl, rfl, h⟩

theorem askKeepAlive_made {c : SrsHttpConn ω R Q} {req : R} {E : Fault → World ω R Q → Prop}
    (cs ds : List (Call R)) :
    Triple (Made (cs ++ ds)) (c.askKeepAlive req)
      (fun alive => Made (cs ++ (ds ++ [.isKeepAlive req alive]))) E := fun _ h =>
  made_concat (congrArg (· ++ _) h)

theorem FailedAt.wrap {cs : List (Call R)} {last : Call R} {f : Fault} {w : World ω R Q}
    (h : FailedAt cs last f w) (fmt : String) (args : List MsgArg) :
    FailedAt cs last (f.wrap fmt args) w := by
  obtain ⟨e, g, rfl, hcode, htrace⟩ := h
  exact ⟨e.wrap fmt args, g, rfl, hcode, htrace⟩

/-- **A pass makes the calls for a request, or it is cut short.** -/
theorem processOne_spec (c : SrsHttpConn ω R Q) (reqId : Nat) (cs : List (Call R)) :
    Triple (Made cs) (c.processOne reqId) (fun alive w => ∃ req, Made (cs ++ exchange alive req) w)
      (fun f w => f = .assertFailed ∨
        ∃ cut last, CutShort cut last ∧ FailedAt (cs ++ cut) last f w) := by
  have hcut : ∀ {cut last}, CutShort cut last → ∀ f (w : World ω R Q),
      FailedAt (cs ++ cut) last f w →
        f = .assertFailed ∨ ∃ cut last, CutShort cut last ∧ FailedAt (cs ++ cut) last f w :=
    fun h f w hf => .inr ⟨_, _, h, hf⟩
  apply processOne_rule (B := fun req => Made (cs ++ [.pull, .parseMessage (some req)]))
  case pull =>
    exact ((ask_made cs []).weaken (fun w h => by simpa using h) (fun _ _ h => h) (hcut .pull))
  case parseMessage => exact (ask_made cs _).failing (hcut .parseMessage)
  case null => exact fun _ _ => .inl rfl
  case request => exact fun _ _ h => h
  case onHttpMessage => exact fun req => (ask_made cs _).failing (hcut (.onHttpMessage req))
  case serveHttp => exact fun req => (ask_made cs _).failing (hcut (.serveHttp req))
  case onMessageDone => exact fun req => (ask_made cs _).failing (hcut (.onMessageDone req))
  case isKeepAlive =>
    exact fun req => (askKeepAlive_made cs _).weaken (fun _ h => h) (fun _ _ h => ⟨req, h⟩)
      fun _ _ h => h
  case wrap =>
    rintro f fmt args w (rfl | ⟨cut, last, h, hf⟩)
    · exact .inl rfl
    · exact .inr ⟨cut, last, h, hf.wrap fmt args⟩

/-! ## A whole run -/

/-- The calls for requests that keep the connection, after those of the start. -/
def kept (reqs : List R) : List (Call R) :=
  [.initializeParser, .onStart] ++ reqs.flatMap (exchange true)

/-- The calls of a run that fails: those that succeed and the one that does not. -/
inductive Interrupted : List (Call R) → Call R → Prop
  | initializeParser : Interrupted [] .initializeParser
  | onStart : Interrupted [.initializeParser] .onStart
  | request (reqs : List R) {cut : List (Call R)} {last : Call R} (h : CutShort cut last) :
    Interrupted (kept reqs ++ cut) last

/-- The run came to a request without keep-alive. -/
def Finished (w : World ω R Q) : Prop := ∃ reqs req, Made (kept reqs ++ exchange false req) w

/-- The run failed, or it does not return. -/
def Broken (f : Fault) (w : World ω R Q) : Prop :=
  (f = .assertFailed ∨ f = .outOfFuel) ∨ ∃ cs last, Interrupted cs last ∧ FailedAt cs last f w

/-- What is known of an error that may be null. -/
def Outcome (P : World ω R Q → Prop) (E : Fault → World ω R Q → Prop) :
    Except SrsCplxError Unit → World ω R Q → Prop
  | .ok (), w => P w
  | .error e, w => E (.error e) w

section

variable {P P' : World ω R Q → Prop} {E : Fault → World ω R Q → Prop} {m : Serving ω R Q Unit}

theorem result_spec (h : Triple P m (fun _ => P') E) :
    Triple P (result m) (Outcome P' E) (fun f w => (∀ e, f ≠ .error e) ∧ E f w) := by
  intro w hw
  unfold result
  cases hrun : m w with
  | ok a w' => exact h.ok_inv hw hrun
  | error f w' =>
    have hf := h.error_inv hw hrun
    cases f with
    | error e => exact hf
    | assertFailed => exact ⟨by simp, hf⟩
    | outOfBounds => exact ⟨by simp, hf⟩
    | outOfFuel => exact ⟨by simp, hf⟩

theorem ret_spec (err : Except SrsCplxError Unit) :
    Triple (Outcome P' E err) (ret err) (fun _ => P') E := by
  cases err with
  | ok a => exact Triple.ret fun w h => h
  | error e => exact Triple.raise fun w h => h

end

theorem processRequests_spec (c : SrsHttpConn ω R Q) (fuel : Nat) :
    Triple (fun w => ∃ reqs, Made (kept reqs) w) (c.processRequests fuel) (fun _ => Finished)
      Broken := by
  refine Triple.loop (fun n => Triple.ex fun reqs => ?_) (fun w h => .inl (.inr rfl)) fuel 0
  refine (c.processOne_spec n (kept reqs)).weaken (fun _ h => h) ?_ ?_
  · rintro (_ | _) w ⟨req, h⟩
    · exact ⟨reqs, req, h⟩
    · refine ⟨reqs ++ [req], ?_⟩
      simpa [kept, List.flatMap_append] using h
  · rintro f w (rfl | ⟨cut, last, hcut, h⟩)
    · exact .inl (.inl rfl)
    · exact .inr ⟨_, last, .request reqs hcut, h⟩

theorem doCycle_spec (c : SrsHttpConn ω R Q) (fuel : Nat) :
    Triple (Made []) (c.doCycle fuel) (fun _ => Finished) Broken := by
  unfold doCycle
  refine ((ask_made [] []).adapt fun f w h => h.wrap _ _).bind
    (fun f w h => .inr ⟨_, _, .initializeParser, h⟩) fun _ => ?_
  refine ((ask_made [] [_]).adapt fun f w h => h.wrap _ _).bind
    (fun f w h => .inr ⟨_, _, .onStart, h⟩) fun _ => ?_
  refine ((result_spec (c.processRequests_spec fuel)).weaken (fun w h => ⟨[], h⟩)
    (fun _ _ h => h) fun _ _ h => h.2).bind (fun _ _ h => h) fun err => ?_
  exact Triple.read.bind (fun _ _ h => h) fun w =>
    (ret_spec err).weaken (fun _ h => h.2) (fun _ _ h => h) fun _ _ h => h

/-- The calls of a run that returns, before the last one, and their outcome. -/
inductive Ended : List (Event R) → Except SrsCplxError Unit → Prop
  | finished (reqs : List R) (req : R) :
    Ended (succeeded (kept reqs ++ exchange false req)) (.ok ())
  | failed {cs : List (Call R)} {last : Call R} {e g : SrsCplxError} (h : Interrupted cs last)
    (hcode : e.errorCode = g.errorCode) : Ended (succeeded cs ++ [⟨last, some g⟩]) (.error e)

theorem Outcome.ended {r0 : Except SrsCplxError Unit} {w : World ω R Q}
    (h : Outcome Finished Broken r0 w) : Ended w.trace r0 := by
  cases r0 with
  | ok a =>
    obtain ⟨reqs, req, hmade⟩ := h
    rw [hmade]
    exact .finished reqs req
  | error e =>
    obtain (hf | hf) | ⟨cs, last, hcs, e', g, he, hcode, htrace⟩ := h
    · cases hf
    · cases hf
    · cases he
      rw [htrace]
      exact .failed hcs hcode

/-- The calls `calls`, and then `on_conn_done(r0)`. -/
def Done (w : World ω R Q) : Prop :=
  ∃ calls r0 failure, Ended calls r0 ∧ w.trace = calls ++ [⟨.onConnDone r0, failure⟩]

theorem onConnDone_spec (r0 : Except SrsCplxError Unit) (answer : Answer ω Unit) :
    Triple (Outcome Finished Broken r0) (ask (fun _ => .onConnDone r0) answer : Serving ω R Q Unit)
      (fun _ => Done) (fun f w => (∃ e, f = .error e) ∧ Done w) := by
  intro w h
  refine (ask_spec (t := w.trace)).weaken (fun _ h => h) ?_ ?_ w rfl
  · intro a w' hw'
    exact ⟨_, r0, none, h.ended, hw'⟩
  · rintro f w' ⟨e, he, hw'⟩
    exact ⟨⟨e, he⟩, _, r0, some e, h.ended, hw'⟩

/-- **A run of `cycle` returns success, and `on_conn_done` is its last call.** -/
theorem cycle_spec (c : SrsHttpConn ω R Q) (fuel : Nat) :
    Triple (Made []) (c.cycle fuel) (fun _ => Done)
      (fun f _ => f = .assertFailed ∨ f = .outOfFuel) := by
  unfold cycle
  refine (result_spec (c.doCycle_spec fuel)).bind ?_ fun r0 => ?_
  · rintro f w ⟨hf, h | ⟨cs, last, -, e, -, he, -⟩⟩
    · exact h
    · exact absurd he (hf e)
  refine (result_spec (onConnDone_spec r0 _)).bind ?_ fun err => ?_
  · rintro f w ⟨hf, ⟨e, he⟩, -⟩
    exact absurd he (hf e)
  cases err with
  | ok a => exact Triple.ret fun _ h => h
  | error e =>
    dsimp only
    split
    · exact Triple.ret fun _ h => h.2
    · exact Triple.ret fun _ h => h.2

/-! ## The life cycle -/

/-- The messages that were parsed. -/
def parsed (calls : List (Event R)) : List R :=
  calls.filterMap fun e => match e.call with
    | .parseMessage req => req
    | _ => none

/-- What is done with a request, from the parse on. -/
def Call.isServing : Call R → Bool
  | .parseMessage (some _) | .onHttpMessage _ | .serveHttp _ | .onMessageDone _ => true
  | _ => false

/-- What was done with the requests. -/
def served (calls : List (Event R)) : List (Call R) := (calls.map Event.call).filter Call.isServing

/-- All that is done with a request. -/
def serving (req : R) : List (Call R) :=
  [.parseMessage (some req), .onHttpMessage req, .serveHttp req, .onMessageDone req]

/-- A failure, or a request without keep-alive. -/
def Event.Stops (e : Event R) : Prop := e.failure ≠ none ∨ ∃ req, e.call = .isKeepAlive req false

/-- `on_start` comes after the parser is initialized, and everything else after `on_start`. -/
def AfterStart (before : List (Event R)) (e : Event R) : Prop :=
  e.call = .initializeParser ∧ before = [] ∨
  e.call = .onStart ∧ before = [⟨.initializeParser, none⟩] ∨
  e.call ≠ .initializeParser ∧ e.call ≠ .onStart ∧
    ∃ rest, before = ⟨.initializeParser, none⟩ :: ⟨.onStart, none⟩ :: rest

/-- How the requests are served. -/
structure Serves (calls : List (Event R)) : Prop where
  /-- Each request is parsed and served before the next one, in order, -/
  inOrder : served calls <+: (parsed calls).flatMap serving
  /-- all but the last one completely, -/
  complete : (parsed calls).dropLast.flatMap serving <+: served calls
  /-- and the last one is cut short only by a failure of what is done with it. -/
  cut : served calls ≠ (parsed calls).flatMap serving →
    ∃ e, calls.getLast? = some e ∧ e.failure ≠ none ∧ (served calls).getLast? = some e.call

/-- How the calls end, and what `on_conn_done` is given. -/
structure Ends (calls : List (Event R)) (r0 : Except SrsCplxError Unit) : Prop where
  /-- Nothing comes after a failure or a request without keep-alive. -/
  stops : ∀ before e after, calls = before ++ e :: after → e.Stops → after = []
  /-- There is no error exactly if the last request is without keep-alive, -/
  success : r0 = .ok () ↔ ∃ req, calls.getLast? = some ⟨.isKeepAlive req false, none⟩
  /-- and an error has the code of the first failure. -/
  code : ∀ err, r0 = .error err →
    ∃ f, (calls.filterMap Event.failure).head? = some f ∧ err.errorCode = f.errorCode

/-- What is said of the calls of a run before `on_conn_done(r0)`. -/
structure LifeCycle (calls : List (Event R)) (r0 : Except SrsCplxError Unit) : Prop where
  /-- `on_start` at most once, and before everything but the parser's initialization. -/
  start : Justified AfterStart calls
  serves : Serves calls
  ends : Ends calls r0
  /-- `on_conn_done` is not among these calls. -/
  once : ∀ e ∈ calls, ∀ r, e.call ≠ .onConnDone r

/-- A call between `on_start` and `on_conn_done`. -/
def Call.IsBetween : Call R → Prop
  | .initializeParser | .onStart | .onConnDone _ => False
  | _ => True

theorem isBetween_kept {reqs : List R} {k : Call R} (hk : k ∈ reqs.flatMap (exchange true)) :
    k.IsBetween ∧ ∀ req, k ≠ .isKeepAlive req false := by
  obtain ⟨req, -, hk⟩ := List.mem_flatMap.mp hk
  simp only [exchange, List.mem_cons, List.not_mem_nil, or_false] at hk
  rcases hk with rfl | rfl | rfl | rfl | rfl | rfl <;> simp [Call.IsBetween]

theorem CutShort.isBetween {cut : List (Call R)} {last : Call R} (h : CutShort cut last) :
    last.IsBetween ∧ ∀ k ∈ cut, k.IsBetween ∧ ∀ req, k ≠ .isKeepAlive req false := by
  cases h <;> simp [Call.IsBetween]

/-! ### The start -/

theorem justified_initialized (failure : Option SrsCplxError) :
    Justified AfterStart [(⟨.initializeParser, failure⟩ : Event R)] :=
  justified_nil.concat (.inl ⟨rfl, rfl⟩)

theorem justified_started (failure : Option SrsCplxError) :
    Justified AfterStart [(⟨.initializeParser, none⟩ : Event R), ⟨.onStart, failure⟩] :=
  (justified_initialized none).concat (.inr (.inl ⟨rfl, rfl⟩))

theorem justified_afterStart {es : List (Event R)} (h : ∀ e ∈ es, e.call.IsBetween) :
    Justified AfterStart (⟨.initializeParser, none⟩ :: ⟨.onStart, none⟩ :: es) := by
  induction es using List.reverseRecOn with
  | nil =>
    exact justified_started none
  | append_singleton es e ih =>
    refine (ih fun e' he' => h e' (by simp [he'])).concat (.inr (.inr ⟨?_, ?_, es, rfl⟩))
    · intro hcall
      simpa [hcall, Call.IsBetween] using h e (by simp)
    · intro hcall
      simpa [hcall, Call.IsBetween] using h e (by simp)

/-! ### The requests -/

theorem parsed_append (es es' : List (Event R)) : parsed (es ++ es') = parsed es ++ parsed es' :=
  List.filterMap_append

theorem served_append (es es' : List (Event R)) : served (es ++ es') = served es ++ served es' := by
  simp [served]

theorem parsed_kept (reqs : List R) : parsed (succeeded (kept reqs)) = reqs := by
  induction reqs with
  | nil => rfl
  | cons req reqs ih => simpa [kept, exchange, succeeded, parsed] using ih

theorem served_kept (reqs : List R) :
    served (succeeded (kept reqs)) = reqs.flatMap serving := by
  induction reqs with
  | nil => rfl
  | cons req reqs ih =>
    simpa [kept, exchange, succeeded, served, serving, Call.isServing, List.filter_cons] using ih

/-- Requests that are all served completely. -/
theorem Serves.of_eq {calls : List (Event R)} (h : served calls = (parsed calls).flatMap serving) :
    Serves calls where
  inOrder := by rw [h]
  complete := by
    rw [h]
    exact (List.dropLast_prefix _).flatMap serving
  cut hne := absurd h hne

/-- Requests that keep the connection, and then calls for one more at most. -/
theorem Serves.kept {tail : List (Event R)} (h : Serves tail) (hlen : (parsed tail).length ≤ 1)
    (reqs : List R) : Serves (succeeded (kept reqs) ++ tail) := by
  have hparsed : parsed (succeeded (SrsHttpConn.kept reqs) ++ tail) = reqs ++ parsed tail := by
    rw [parsed_append, parsed_kept]
  have hserved : served (succeeded (SrsHttpConn.kept reqs) ++ tail) =
      reqs.flatMap serving ++ served tail := by
    rw [served_append, served_kept]
  refine ⟨?_, ?_, fun hne => ?_⟩
  · rw [hserved, hparsed, List.flatMap_append, List.prefix_append_right_inj]
    exact h.inOrder
  · rw [hserved, hparsed]
    have hdrop : (reqs ++ parsed tail).dropLast <+: reqs := by
      rw [List.dropLast_eq_take]
      refine List.prefix_of_prefix_length_le (List.take_prefix _ _) (List.prefix_append _ _) ?_
      rw [List.length_take, List.length_append]
      omega
    exact (hdrop.flatMap serving).trans (List.prefix_append _ _)
  · rw [hserved, hparsed, List.flatMap_append, Ne, List.append_cancel_left_eq] at hne
    obtain ⟨e, hlast, hfail, hserve⟩ := h.cut hne
    exact ⟨e, by simp [hlast], hfail, by simp [hserved, hserve]⟩

theorem serves_exchange (req : R) : Serves (succeeded (exchange false req)) := .of_eq rfl

theorem CutShort.serves {cut : List (Call R)} {last : Call R} (h : CutShort cut last)
    (g : SrsCplxError) : Serves (succeeded cut ++ [⟨last, some g⟩]) := by
  cases h with
  | pull => exact .of_eq rfl
  | parseMessage => exact .of_eq rfl
  | onHttpMessage req =>
    exact ⟨⟨[.serveHttp req, .onMessageDone req], rfl⟩, ⟨_, rfl⟩, fun _ => ⟨_, rfl, by simp, rfl⟩⟩
  | serveHttp req =>
    exact ⟨⟨[.onMessageDone req], rfl⟩, ⟨_, rfl⟩, fun _ => ⟨_, rfl, by simp, rfl⟩⟩
  | onMessageDone req => exact .of_eq rfl

theorem CutShort.length_parsed {cut : List (Call R)} {last : Call R} (h : CutShort cut last)
    (g : SrsCplxError) : (parsed (succeeded cut ++ [⟨last, some g⟩])).length ≤ 1 := by
  cases h <;> simp [parsed, succeeded]

/-! ### The end -/

theorem failures_succeeded (cs : List (Call R)) :
    (succeeded cs).filterMap Event.failure = [] := by
  simp [succeeded]

/-- Calls that go on, and one that stops. -/
theorem ends_of_stops {cs : List (Call R)} {last : Event R} {r0 : Except SrsCplxError Unit}
    (hcs : ∀ k ∈ cs, ∀ req, k ≠ .isKeepAlive req false)
    (hlast : (r0 = .ok () ∧ ∃ req, last = ⟨.isKeepAlive req false, none⟩) ∨
      ∃ e g, r0 = .error e ∧ last.failure = some g ∧ e.errorCode = g.errorCode) :
    Ends (succeeded cs ++ [last]) r0 := by
  refine ⟨fun before e after heq hstops => ?_, ?_, ?_⟩
  · rcases List.eq_nil_or_concat after with rfl | ⟨after', x, rfl⟩
    · rfl
    · rw [List.concat_eq_append, ← List.cons_append, ← List.append_assoc] at heq
      have hmem : e ∈ succeeded cs := by
        rw [(List.append_inj' heq rfl).1]
        simp
      obtain ⟨k, hk, rfl⟩ := List.mem_map.mp hmem
      rcases hstops with hfail | ⟨req, hreq⟩
      · exact absurd rfl hfail
      · exact absurd hreq (hcs k hk req)
  · rw [List.getLast?_concat]
    rcases hlast with ⟨rfl, req, rfl⟩ | ⟨e, g, rfl, hg, -⟩
    · simp
    · refine iff_of_false (by simp) ?_
      rintro ⟨req, hreq⟩
      cases hreq
      cases hg
  · rintro err rfl
    rcases hlast with ⟨hr, -⟩ | ⟨e, g, hr, hg, hcode⟩
    · cases hr
    · cases hr
      exact ⟨g, by simp [failures_succeeded, hg], hcode⟩

/-! ### The whole cycle -/

/-- The calls for requests that keep the connection, and for one that ends it. -/
theorem lifeCycle_kept (reqs : List R) {ds : List (Call R)} {last : Event R}
    {r0 : Except SrsCplxError Unit} (hserves : Serves (succeeded ds ++ [last]))
    (hlen : (parsed (succeeded ds ++ [last])).length ≤ 1)
    (hds : ∀ k ∈ ds, k.IsBetween ∧ ∀ req, k ≠ .isKeepAlive req false) (hcall : last.call.IsBetween)
    (hlast : (r0 = .ok () ∧ ∃ req, last = ⟨.isKeepAlive req false, none⟩) ∨
      ∃ e g, r0 = .error e ∧ last.failure = some g ∧ e.errorCode = g.errorCode) :
    LifeCycle (succeeded (kept reqs ++ ds) ++ [last]) r0 := by
  have hks : ∀ k ∈ reqs.flatMap (exchange true) ++ ds,
      k.IsBetween ∧ ∀ req, k ≠ .isKeepAlive req false := by
    intro k hk
    rcases List.mem_append.mp hk with hk | hk
    · exact isBetween_kept hk
    · exact hds k hk
  have hbetween : ∀ e ∈ succeeded (reqs.flatMap (exchange true) ++ ds) ++ [last],
      e.call.IsBetween := by
    intro e he
    rcases List.mem_append.mp he with he | he
    · obtain ⟨k, hk, rfl⟩ := List.mem_map.mp he
      exact (hks k hk).1
    · rw [List.mem_singleton.mp he]
      exact hcall
  have hcalls : succeeded (kept reqs ++ ds) ++ [last] = ⟨.initializeParser, none⟩ ::
      ⟨.onStart, none⟩ :: (succeeded (reqs.flatMap (exchange true) ++ ds) ++ [last]) := rfl
  refine ⟨?_, ?_, ends_of_stops (fun k hk => ?_) hlast, fun e he r0 hr0 => ?_⟩
  · rw [hcalls]
    exact justified_afterStart hbetween
  · rw [succeeded_append, List.append_assoc]
    exact hserves.kept hlen reqs
  · have hk : k ∈ .initializeParser :: .onStart :: (reqs.flatMap (exchange true) ++ ds) := hk
    rcases List.mem_cons.mp hk with rfl | hk
    · simp
    · rcases List.mem_cons.mp hk with rfl | hk
      · simp
      · exact (hks k hk).2
  · rw [hcalls] at he
    rcases List.mem_cons.mp he with rfl | he
    · cases hr0
    · rcases List.mem_cons.mp he with rfl | he
      · cases hr0
      · simpa [hr0, Call.IsBetween] using hbetween e he

/-- **The calls of a run that returns are a life cycle.** -/
theorem Ended.lifeCycle {calls : List (Event R)} {r0 : Except SrsCplxError Unit}
    (h : Ended calls r0) : LifeCycle calls r0 := by
  cases h with
  | finished reqs req =>
    have hcalls : succeeded (kept reqs ++ exchange false req) =
        succeeded (kept reqs ++ (exchange false req).dropLast) ++
          [⟨.isKeepAlive req false, none⟩] := by
      rw [succeeded_append, succeeded_append, List.append_assoc]
      rfl
    rw [hcalls]
    exact lifeCycle_kept reqs (serves_exchange req) (Nat.le_refl 1)
      (by simp [exchange, Call.IsBetween]) trivial (.inl ⟨rfl, req, rfl⟩)
  | @failed _ _ e g h hcode =>
    cases h with
    | request reqs hcut =>
      exact lifeCycle_kept reqs (hcut.serves g) (hcut.length_parsed g) hcut.isBetween.2
        hcut.isBetween.1 (.inr ⟨e, g, rfl, rfl, hcode⟩)
    | initializeParser =>
      exact ⟨justified_initialized _, .of_eq rfl,
        ends_of_stops (by simp) (.inr ⟨e, g, rfl, rfl, hcode⟩), by simp [succeeded]⟩
    | onStart =>
      exact ⟨justified_started _, .of_eq rfl,
        ends_of_stops (by simp) (.inr ⟨e, g, rfl, rfl, hcode⟩), by simp [succeeded]⟩

/-- The run came back from `cycle`. -/
def Returned : EStateM.Result Fault (World ω R Q) Unit → Prop
  | .ok _ _ | .error (.error _) _ => True
  | .error _ _ => False

/-- **The life cycle of a connection**: `cycle` that comes back returns success, and `on_conn_done`
is its last call, with the outcome of the calls before it. -/
theorem cycle_lifeCycle (c : SrsHttpConn ω R Q) (fuel : Nat) (env : ω)
    (h : Returned (c.cycle fuel ⟨env, none, []⟩)) :
    ∃ calls r0 failure w, c.cycle fuel ⟨env, none, []⟩ = .ok () w ∧
      w.trace = calls ++ [⟨.onConnDone r0, failure⟩] ∧ LifeCycle calls r0 := by
  have hmade : Made [] (⟨env, none, []⟩ : World ω R Q) := rfl
  cases hrun : c.cycle fuel ⟨env, none, []⟩ with
  | ok a w =>
    obtain ⟨calls, r0, failure, hended, htrace⟩ := (c.cycle_spec fuel).ok_inv hmade hrun
    exact ⟨calls, r0, failure, w, rfl, htrace, hended.lifeCycle⟩
  | error f w =>
    rw [hrun] at h
    rcases (c.cycle_spec fuel).error_inv hmade hrun with rfl | rfl
    · exact h.elim
    · exact h.elim

/-- A client with one request, and a coroutine that is then interrupted. -/
def oneRequest : SrsHttpConn Nat Unit Unit where
  parser := ⟨fun n => (.ok (), n), fun n => (.ok (some ()), n)⟩
  cors _ n := (.ok (), n)
  handler :=
    ⟨fun n => (.ok (), n), fun _ n => (.ok (), n), fun _ n => (.ok (), n), fun r0 n => (r0, n)⟩
  trd n := if n = 0 then (.ok (), 1) else (.error (.new 1070 "interrupted" []), n)
  ip := []
  isKeepAlive _ n := (true, n)
  toRequest _ := ()
  srsErrorDesc _ := []

theorem cycle_lifeCycle_oneRequest :
    ∃ calls r0 failure w, oneRequest.cycle 2 ⟨0, none, []⟩ = .ok () w ∧
      w.trace = calls ++ [⟨.onConnDone r0, failure⟩] ∧ LifeCycle calls r0 :=
  cycle_lifeCycle oneRequest 2 0 trivial

end SrsHttpConn

end Ssms.App
