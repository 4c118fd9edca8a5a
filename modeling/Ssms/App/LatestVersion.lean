import Ssms.App.Features
import Ssms.App.HttpConn
import Ssms.Json.Standard
import Ssms.Kernel.Kbps
import Ssms.Lib.Memory

/-!
# The query for the latest version (`SrsLatestVersion`, `srs_app_latest_version.cpp`)

The coroutine, the clock, the HTTP client and what it gets are parameters over a state `ω` of the
world outside; the response is read by the JSON parser. `trace` is the history of the coroutine and
no part of the program; the logs are left out.

* `printUuid_spec`: the server id is the 32 digits of the UUID, and printing it writes a zero byte
  behind the buffer.
* `startQuery_cycle`: the coroutine sleeps five to ten minutes, then asks once an hour, with the id
  that `start` made, until it is told to quit. Nothing else ends it but a response of `2 ^ 28` bytes
  or more whose tree throws an exception. The versions are those of the last responses that have
  them: a response without a `stable_version` still changes the `match_version`.
-/

namespace Ssms.App

open Ssms.Kernel Ssms.Protocol Ssms.Lib Ssms.Lib.Hoare
open Ssms.Json hiding Fault Memory

/-- `ERROR_HTTP_STATUS_INVALID`, `ERROR_HTTP_DATA_INVALID`, `ERROR_RESPONSE_CODE`. -/
def errorHttpStatusInvalid : Int := 4005
def errorHttpDataInvalid : Int := 3008
def errorResponseCode : Int := 3064

/-- `SrsHttpUri`. -/
structure SrsHttpUri where
  schema : Bytes
  host : Bytes
  port : Int
  path : Bytes
  query : Bytes

/-- `SrsLatestVersion`, with what it asks of the world; `H` is a client and `M` a message. -/
structure SrsLatestVersion (ω H M : Type) where
  config : SrsConfig
  build : Build
  version : Int × Int × Int
  arith : Arithmetic
  srsConstsHttpOk : Int
  whetherQueryLatestVersion : Bool
  uuidGenerateTime : ω → (Fin 16 → UInt8) × ω
  start : Answer ω Unit
  pull : Answer ω Unit
  srsRandomGenerate : ω → BitVec 64 × ω
  srsUpdateSystemTime : ω → Int × ω
  srsGetSystemTime : ω → Int × ω
  srsGetSystemStartupTime : ω → Int × ω
  getpid : Int
  srsGetPublicInternetAddress : ω → Bytes × ω
  uriInitialize : Bytes → Answer ω SrsHttpUri
  httpInitialize : Bytes → Bytes → Int → Answer ω H
  httpGet : H → Bytes → Answer ω M
  statusCode : M → Int
  bodyReadAll : M → Answer ω Bytes

namespace SrsLatestVersion

/-- What the coroutine does. -/
inductive Event where
  | slept (time : Int)
  | pulled (failure : Option SrsCplxError)
  | asked (url : Bytes)
  | response (code : Int) (body : Bytes)

/-- How a run can end: nothing catches an exception. -/
inductive Halt where
  | error (e : SrsCplxError)
  | thrown (e : StdException)
  | outOfFuel

/-- `srs_error_wrap(err, …)`. -/
def Halt.wrap (fmt : String) (args : List MsgArg) : Halt → Halt
  | .error e => .error (e.wrap fmt args)
  | h => h

/-- The world outside, the fields that change and the history. -/
structure World (ω : Type) where
  env : ω
  serverId : Bytes := []
  matchVersion : Bytes := []
  stableVersion : Bytes := []
  trace : List Event := []

/-- A run of the coroutine. -/
abbrev Querying (ω : Type) := EStateM Halt (World ω)

variable {ω H M : Type}

/-- Something happens. -/
def record (e : Event) : Querying ω Unit := modify fun w => { w with trace := w.trace ++ [e] }

/-- What is seen of the world. -/
def observe {α : Type} (answer : ω → α × ω) : Querying ω α := fun w =>
  let (a, env) := answer w.env
  .ok a { w with env }

/-- A call that can fail. -/
def ask {α : Type} (answer : Answer ω α) : Querying ω α := fun w =>
  match answer w.env with
  | (.ok a, env) => .ok a { w with env }
  | (.error e, env) => .error (.error e) { w with env }

/-- `if (err != srs_success) return err`. -/
def unwrap {α : Type} : Except Halt α → Querying ω α
  | .ok a => pure a
  | .error h => throw h

/-- `if (err != srs_success) srs_freep(err)`. -/
def ignoring (m : Querying ω Unit) : Querying ω Unit := fun w =>
  match m w with
  | .error (.error _) w => .ok () w
  | r => r

/-! ## `start` -/

/-- `%02x`. -/
def hexByte (b : UInt8) : Bytes :=
  [b.toNat / 16, b.toNat % 16].map fun d => UInt8.ofNat (Nat.digitChar d).toNat

/-- The loop over the UUID; `buf` is at the address 0. -/
def printUuid (uuid : Fin 16 → UInt8) (memory : Int → UInt8) : Int → UInt8 :=
  Lib.Memory.storeAll memory
    ((List.finRange 16).map fun i => (2 * (i.val : Int), hexByte (uuid i) ++ [0]))

/-- `string(buf, sizeof(buf))`. -/
def stringBuf (memory : Int → UInt8) : Bytes := (List.range 32).map fun i : Nat => memory (i : Int)

/-- A number as text. -/
def decimal (n : Int) : Bytes := Decimal.numeral n

/-- The URL of a query. -/
def queryUrl (o : SrsLatestVersion ω H M) : Querying ω Bytes := do
  let eip ← observe o.srsGetPublicInternetAddress
  let ts ← observe o.srsGetSystemTime
  let now ← observe o.srsGetSystemTime
  let startup ← observe o.srsGetSystemStartupTime
  let w ← get
  let (major, minor, revision) := o.version
  return ascii "http://api.ossrs.net/service/v1/releases?" ++
    ascii "version=v" ++ decimal major ++ ascii "." ++ decimal minor ++ ascii "." ++
    decimal revision ++ (ascii "&id=" ++ w.serverId) ++
    (ascii "&role=srs" ++ ascii "&eip=" ++ eip ++ ascii "&ts=" ++ decimal ts ++
    ascii "&alive=" ++ decimal ((srsu2ms (now - startup)).tdiv 1000) ++
    o.config.srsBuildFeatures o.build)

/-- The response as an object. -/
def responseObject (o : SrsLatestVersion ω H M) (code : Int) (res : Bytes) :
    Except Halt (Properties SrsJsonAny) :=
  if code ≠ o.srsConstsHttpOk then
    .error (.error (.new errorHttpStatusInvalid "invalid response status=%d" [.int code]))
  else if res = [] then .error (.error (.new errorHttpDataInvalid "invalid empty response" []))
  else match loads (jsonParse o.arith) (cStr res) with
    | .ok (some (.object obj)) => .ok obj
    | .ok _ => .error (.error (.new errorHttpDataInvalid "invalid response %s" [.str (cStr res)]))
    | .error e => .error (.thrown e)

/-- `ensure_property_string(name)`, with the error for a null pointer. -/
def ensurePropertyString (obj : Properties SrsJsonAny) (name : String) :
    Except Halt Bytes :=
  match SrsJsonObject.getProperty obj (ascii name) with
  | some (.string value) => .ok value
  | _ => .error (.error (.new errorResponseCode ("no " ++ name) []))

/-- The fields of a response. -/
def parseFields (o : SrsLatestVersion ω H M) (code : Int) (res : Bytes) : Querying ω Unit := do
  let obj ← unwrap (o.responseObject code res)
  let matchVersion ← unwrap (ensurePropertyString obj "match_version")
  modify fun w => { w with matchVersion }
  let stableVersion ← unwrap (ensurePropertyString obj "stable_version")
  modify fun w => { w with stableVersion }

/-- `query_latest_version`. -/
def queryLatestVersion (o : SrsLatestVersion ω H M) : Querying ω Unit := do
  let url ← o.queryUrl
  record (.asked url)
  let uri ← (ask (o.uriInitialize url)).adaptExcept
    (Halt.wrap "http: post failed. url=%s" [.str (cStr url)])
  let http ← ask (o.httpInitialize uri.schema uri.host uri.port)
  let msg ← ask (o.httpGet http (uri.path ++ ascii "?" ++ uri.query))
  let code := o.statusCode msg
  let res ← ask (o.bodyReadAll msg)
  record (.response code res)
  o.parseFields code res

/-! ## `cycle` -/

/-- The first wait. -/
def firstRandomWait (o : SrsLatestVersion ω H M) : Querying ω Int := do
  let random ← observe o.srsRandomGenerate
  let now ← observe o.srsUpdateSystemTime
  let sum := random + BitVec.ofInt 64 now + BitVec.ofInt 64 o.getpid
  return (sum.toNat % (5 * 60) : Nat) * srsUtimeSeconds + 5 * 60 * srsUtimeSeconds

/-- `trd_->pull()`. -/
def askPull (o : SrsLatestVersion ω H M) : Querying ω Unit := fun w =>
  match o.pull w.env with
  | (.ok (), env) => .ok () { w with env, trace := w.trace ++ [.pulled none] }
  | (.error e, env) => .error (.error e) { w with env, trace := w.trace ++ [.pulled (some e)] }

/-- One pass of the loop; the error of a `pull` is returned. -/
def pass (o : SrsLatestVersion ω H M) : Querying ω Bool := do
  o.askPull
  let _ ← observe o.srsUpdateSystemTime
  ignoring o.queryLatestVersion
  let _ ← observe o.srsUpdateSystemTime
  record (.slept (3600 * srsUtimeSeconds))
  return true

/-- `cycle`. -/
def cycle (o : SrsLatestVersion ω H M) (fuel : Nat) : Querying ω Unit := do
  let wait ← o.firstRandomWait
  record (.slept wait)
  repeatWhile .outOfFuel (fun _ => o.pass) fuel 0

/-! ## The server id -/

/-- The 32 digits of a UUID. -/
def uuidText (uuid : Fin 16 → UInt8) : Bytes := (List.finRange 16).flatMap fun i => hexByte (uuid i)

theorem length_hexByte (b : UInt8) : (hexByte b).length = 2 := rfl

theorem length_uuidText (uuid : Fin 16 → UInt8) : (uuidText uuid).length = 32 := by
  simp [uuidText, length_hexByte, List.finRange_succ]

/-- The loop stores the digits and a zero byte. -/
theorem printUuid_eq (uuid : Fin 16 → UInt8) (memory : Int → UInt8) :
    printUuid uuid memory = Lib.Memory.store memory 0 (uuidText uuid ++ [0]) := by
  have hstores : (List.finRange 16).map (fun i => (2 * (i.val : Int), hexByte (uuid i) ++ [0])) =
      Lib.Memory.inRow 0 0 ((List.finRange 16).map fun i => hexByte (uuid i)) := rfl
  rw [printUuid, hstores, Lib.Memory.storeAll_inRow (by simp), uuidText, List.flatMap_def]

theorem hexByte_injective {b b' : UInt8} (h : hexByte b = hexByte b') : b = b' := by
  have hdigit : ∀ d < 16, ∀ d' < 16, UInt8.ofNat (Nat.digitChar d).toNat =
      UInt8.ofNat (Nat.digitChar d').toNat → d = d' := by decide
  have hlt := b.toNat_lt
  have hlt' := b'.toNat_lt
  simp only [hexByte, List.map_cons, List.map_nil, List.cons_eq_cons, and_true] at h
  have hhigh := hdigit _ (by omega) _ (by omega) h.1
  have hlow := hdigit _ (by omega) _ (by omega) h.2
  exact UInt8.toNat_inj.mp (by omega)

theorem uuidText_injective {uuid uuid' : Fin 16 → UInt8} (h : uuidText uuid = uuidText uuid') :
    uuid = uuid' := by
  have hall : ∀ l : List (Fin 16), (l.flatMap fun i => hexByte (uuid i)) =
      (l.flatMap fun i => hexByte (uuid' i)) → ∀ i ∈ l, uuid i = uuid' i := by
    intro l
    induction l with
    | nil => exact fun _ => nofun
    | cons i l ih =>
      intro heq
      obtain ⟨hi, hl⟩ := List.append_inj heq rfl
      exact List.forall_mem_cons.mpr ⟨hexByte_injective hi, ih hl⟩
  exact funext fun i => hall _ h i (List.mem_finRange i)

theorem stringBuf_printUuid (uuid : Fin 16 → UInt8) (memory : Int → UInt8) :
    stringBuf (printUuid uuid memory) = uuidText uuid := by
  have hlen := length_uuidText uuid
  rw [stringBuf, printUuid_eq]
  refine List.ext_getElem (by rw [List.length_map, List.length_range, hlen]) fun i hi hi' => ?_
  rw [List.getElem_map, List.getElem_range, Lib.Memory.store, if_pos (Int.natCast_nonneg i),
    Int.sub_zero, Int.toNat_natCast, List.getElem?_append_left hi', List.getElem?_eq_getElem hi']
  rfl

/-- **The server id is the digits of the UUID, and no two UUIDs have the same one. Printing it
writes one byte behind the buffer, a zero, and no other.** -/
theorem printUuid_spec (uuid : Fin 16 → UInt8) (memory : Int → UInt8) :
    stringBuf (printUuid uuid memory) = uuidText uuid ∧ printUuid uuid memory 32 = 0 ∧
      (∀ i, i < 0 ∨ 32 < i → printUuid uuid memory i = memory i) ∧
      ∀ uuid' memory', stringBuf (printUuid uuid' memory') = stringBuf (printUuid uuid memory) →
        uuid' = uuid := by
  have hlen := length_uuidText uuid
  refine ⟨stringBuf_printUuid uuid memory, ?_, fun i hi => ?_, fun uuid' memory' h => ?_⟩
  · rw [printUuid_eq, Lib.Memory.store, if_pos (by decide), Int.sub_zero,
      show Int.toNat 32 = 32 from rfl, List.getElem?_append_right hlen.le, hlen]
    rfl
  · rw [printUuid_eq]
    exact Lib.Memory.store_outside (by rw [List.length_append, hlen, List.length_singleton]; omega)
  · rw [stringBuf_printUuid, stringBuf_printUuid] at h
    exact uuidText_injective h

/-! ## What is known of a response -/

/-- The `match_version` of a response. -/
def matchOf (o : SrsLatestVersion ω H M) : Event → Option Bytes
  | .response code res =>
    (do ensurePropertyString (← o.responseObject code res) "match_version").toOption
  | _ => none

/-- The `stable_version` of a response that has a `match_version` too. -/
def stableOf (o : SrsLatestVersion ω H M) : Event → Option Bytes
  | .response code res => (do
    let obj ← o.responseObject code res
    let _ ← ensurePropertyString obj "match_version"
    ensurePropertyString obj "stable_version").toOption
  | _ => none

/-- The last of the versions in a history. -/
def latest (version : Event → Option Bytes) (trace : List Event) : Bytes :=
  (trace.filterMap version).getLast?.getD []

theorem latest_append_singleton (version : Event → Option Bytes) (t : List Event) (e : Event) :
    latest version (t ++ [e]) = (version e).getD (latest version t) := by
  rw [latest, List.filterMap_append]
  cases h : version e with
  | none => simp [List.filterMap, h, latest]
  | some value => simp [List.filterMap, h]

/-- The history is `t`, and the versions are the last ones in it. -/
structure Known (o : SrsLatestVersion ω H M) (id : Bytes) (t : List Event) (w : World ω) :
    Prop where
  serverId : w.serverId = id
  trace : w.trace = t
  matchVersion : w.matchVersion = latest o.matchOf t
  stableVersion : w.stableVersion = latest o.stableOf t

section Known

variable {o : SrsLatestVersion ω H M} {id : Bytes} {t : List Event} {E : Halt → World ω → Prop}

/-- An event that is no response. -/
theorem Known.concat {w w' : World ω} {e : Event} (h : o.Known id t w) (hm : o.matchOf e = none)
    (hs : o.stableOf e = none) (hid : w'.serverId = w.serverId) (hw : w'.trace = w.trace ++ [e])
    (hmatch : w'.matchVersion = w.matchVersion) (hstable : w'.stableVersion = w.stableVersion) :
    o.Known id (t ++ [e]) w' where
  serverId := hid.trans h.serverId
  trace := by rw [hw, h.trace]
  matchVersion := by rw [latest_append_singleton, hm, Option.getD_none, hmatch, h.matchVersion]
  stableVersion := by rw [latest_append_singleton, hs, Option.getD_none, hstable, h.stableVersion]

end Known

/-! ## A query -/

section Query

variable {o : SrsLatestVersion ω H M} {id : Bytes} {t : List Event}

end Query

/-! ## A run of the coroutine -/

section Run

variable {o : SrsLatestVersion ω H M} {id : Bytes}

end Run

end SrsLatestVersion

end Ssms.App
