import Ssms.Kernel.Error
import Ssms.Lib.Decimal
import Ssms.Lib.Memory
import Ssms.Lib.Wrap
import Mathlib.Tactic.SplitIfs

/-!
# Log lines (`srs_app_log.cpp`, `srs_service_log.cpp`)

A function of a logger prints the header, the message and, for an error, the text of `errno` into a
buffer of 8192 bytes, one behind the other. A call is modelled by what it does to that buffer: the
`snprintf` and `vsnprintf` calls, each with its offset, its capacity argument and the whole text it
would print, and the newline that `write_log` stores. `size` is an `int` and counts what the whole
texts would take, so it can be past the buffer. What becomes of the finished line (standard output,
a file) is left out.

* **`inside_iff`**: a call stays in its buffer, exactly if the lengths add up to an `int` in a
  `SrsFileLog`, and in `SrsConsoleLog::error` if there is no `errno` text or header and message fit.
* **`AllInside.outside`**: a call that stays in its buffer leaves the memory around it as it is.
-/

namespace Ssms.App.Log

open Ssms.Kernel Ssms.Lib

/-- `LOG_MAX_SIZE`, `LOG_TAIL`, `LOG_TAIL_SIZE` of `SrsFileLog`. -/
def logMaxSize : Int := 8192
def logTail : UInt8 := 0x0A
def logTailSize : Int := 1

/-- `SRS_BASIC_LOG_SIZE` of `SrsConsoleLog`. -/
def srsBasicLogSize : Int := 8192

/-- `SrsLogLevel`. -/
inductive SrsLogLevel
  | forbidden | verbose | info | trace | warn | error | disabled
  deriving DecidableEq

/-- The values of the levels. -/
def SrsLogLevel.value : SrsLogLevel → Nat
  | .forbidden => 0x00
  | .verbose => 0x01
  | .info => 0x02
  | .trace => 0x04
  | .warn => 0x08
  | .error => 0x10
  | .disabled => 0x20

/-! ## Texts -/

/-- `%0<width>d`. -/
def padded (width : Nat) (v : Int) : Bytes :=
  let sign := if v < 0 then [Decimal.minus] else []
  let digits := Decimal.digits v.natAbs
  sign ++ List.replicate (width - (sign.length + digits.length)) 0x30 ++ digits

/-- `"[%d]"` and `"[%s]"`. -/
def boxed (text : Bytes) : Bytes := ascii "[" ++ text ++ ascii "]"

/-- The fields of a `struct tm` that are printed. -/
structure Tm where
  tmYear : Int
  tmMon : Int
  tmMday : Int
  tmHour : Int
  tmMin : Int
  tmSec : Int

/-- What a call reads from the system: `errno` when the header is printed, and `errnoAfter` when the
message is. -/
structure System where
  gettimeofday : Option (Int × Int)
  gmtime : Int → Option Tm
  localtime : Int → Option Tm
  getpid : Int
  errno : Int
  errnoAfter : Int
  strerror : Int → Bytes

/-- The text of a header. -/
def headerText (sys : System) (now : Tm) (usec : Int) (dangerous : Bool) (tag : Option Bytes)
    (cid level : Bytes) : Bytes :=
  let date := Decimal.numeral (int32 (1900 + now.tmYear)) ++ ascii "-"
    ++ padded 2 (int32 (1 + now.tmMon)) ++ ascii "-" ++ padded 2 now.tmMday
  let time := padded 2 now.tmHour ++ ascii ":" ++ padded 2 now.tmMin ++ ascii ":"
    ++ padded 2 now.tmSec ++ ascii "." ++ padded 3 (int32 (usec.tdiv 1000))
  let front := boxed (date ++ ascii " " ++ time) ++ boxed level ++
    boxed (Decimal.numeral sys.getpid)
    ++ boxed (cStr cid)
  if dangerous then
    match tag with
    | some tag => front ++ boxed (Decimal.numeral sys.errno) ++ boxed (cStr tag) ++ ascii " "
    | none => front ++ boxed (Decimal.numeral sys.errno) ++ ascii " "
  else
    match tag with
    | some tag => front ++ boxed (cStr tag) ++ ascii " "
    | none => front ++ ascii " "

/-- What `snprintf` and `vsnprintf` return: the length of the whole text, or -1 if that is no
`int`. -/
def printed (text : Bytes) : Int := if text.length < 2 ^ 31 then text.length else -1

/-- An `int` as a `size_t`. -/
def sizeT (v : Int) : Nat := (v % 2 ^ 64).toNat

/-! ## What a call does to its buffer -/

/-- `snprintf(buffer + offset, capacity, ..)` of a text, or `buffer[index] = c`. -/
inductive Access
  | print (offset : Int) (capacity : Nat) (text : Bytes)
  | store (index : Int) (c : UInt8)

/-- An access starts in a buffer of `n` bytes, and its capacity is what is left there. -/
def Access.Inside (n : Int) : Access → Prop
  | .print offset capacity _ =>
    0 ≤ offset ∧ offset < n ∧ 0 < capacity ∧ (capacity : Int) = n - offset
  | .store index _ => 0 ≤ index ∧ index < n

/-- `srs_log_header`: what it prints, and the size of a header that it accepts. -/
def srsLogHeader (sys : System) (size : Int) (utc dangerous : Bool) (tag : Option Bytes)
    (cid level : Bytes) : List Access × Option Int :=
  match sys.gettimeofday with
  | none => ([], none)
  | some tv =>
    match if utc then sys.gmtime tv.1 else sys.localtime tv.1 with
    | none => ([], none)
    | some now =>
      let text := headerText sys now tv.2 dangerous tag cid level
      let written := printed text
      ([.print 0 (sizeT size) text],
        if written ≥ size then none else if written = -1 then none else some written)

/-- A header and a message behind it, and what the function makes of the size then. -/
def headed (header : List Access × Option Int) (bufferSize : Int) (msg : Bytes)
    (rest : Int → List Access) : List Access :=
  match header.2 with
  | none => header.1
  | some size => header.1 ++
      .print size (sizeT (int32 (bufferSize - size))) msg :: rest (int32 (size + printed msg))

/-- `"(%s)"` of `strerror(errno)`. -/
def errnoText (sys : System) : Bytes :=
  ascii "(" ++ cStr (sys.strerror sys.errnoAfter) ++ ascii ")"

/-! ## `SrsFileLog` -/

/-- `SrsFileLog`: `level` and `utc`. -/
structure SrsFileLog where
  level : SrsLogLevel
  utc : Bool

namespace SrsFileLog

/-- `write_log`, up to the newline. -/
def writeLog (size : Int) : List Access :=
  [.store (min (logMaxSize - 1 - logTailSize) size) logTail]

/-- `srs_log_header` at the start of a function, or nothing below the level of the log. -/
def header (l : SrsFileLog) (sys : System) (own : SrsLogLevel) (dangerous : Bool)
    (tag : Option Bytes) (cid : Bytes) (level : String) : List Access × Option Int :=
  if l.level.value > own.value then ([], none)
  else srsLogHeader sys logMaxSize l.utc dangerous tag cid (ascii level)

variable (l : SrsFileLog) (sys : System) (tag : Option Bytes) (cid msg : Bytes)

def verbose : List Access :=
  headed (l.header sys .verbose false tag cid "Verb") logMaxSize msg writeLog

def info : List Access :=
  headed (l.header sys .info false tag cid "Debug") logMaxSize msg writeLog

def trace : List Access :=
  headed (l.header sys .trace false tag cid "Trace") logMaxSize msg writeLog

def warn : List Access :=
  headed (l.header sys .warn true tag cid "Warn") logMaxSize msg writeLog

/-- The end of `error`: the text of `errno` only where there is room for it. -/
def addStrerror (size : Int) : List Access :=
  if sys.errnoAfter ≠ 0 ∧ size < logMaxSize then
    .print size (sizeT (int32 (logMaxSize - size))) (errnoText sys)
      :: writeLog (int32 (size + printed (errnoText sys)))
  else writeLog size

def error : List Access :=
  headed (l.header sys .error true tag cid "Error") logMaxSize msg (addStrerror sys)

end SrsFileLog

/-! ## `SrsConsoleLog` -/

/-- `SrsConsoleLog`. -/
structure SrsConsoleLog where
  level : SrsLogLevel
  utc : Bool

namespace SrsConsoleLog

/-- `srs_log_header` at the start of a function, or nothing below the level of the log. -/
def header (l : SrsConsoleLog) (sys : System) (own : SrsLogLevel) (dangerous : Bool)
    (tag : Option Bytes) (cid : Bytes) (level : String) : List Access × Option Int :=
  if l.level.value > own.value then ([], none)
  else srsLogHeader sys srsBasicLogSize l.utc dangerous tag cid (ascii level)

variable (l : SrsConsoleLog) (sys : System) (tag : Option Bytes) (cid msg : Bytes)

/-- The end of `error`: the text of `errno`, at the size whatever it is. -/
def addStrerror (size : Int) : List Access :=
  if sys.errnoAfter ≠ 0 then
    [.print size (sizeT (int32 (srsBasicLogSize - size))) (errnoText sys)]
  else []

def error : List Access :=
  headed (l.header sys .error true tag cid "Error") srsBasicLogSize msg (addStrerror sys)

def warn : List Access :=
  headed (l.header sys .warn true tag cid "Warn") srsBasicLogSize msg fun _ => []

def trace : List Access :=
  headed (l.header sys .trace false tag cid "Trace") srsBasicLogSize msg fun _ => []

def info : List Access :=
  headed (l.header sys .info false tag cid "Debug") srsBasicLogSize msg fun _ => []

def verbose : List Access :=
  headed (l.header sys .verbose false tag cid "Verb") srsBasicLogSize msg fun _ => []

end SrsConsoleLog

/-! ## The ten functions -/

/-- A logger. -/
inductive ISrsLog
  | file (log : SrsFileLog)
  | console (log : SrsConsoleLog)

/-- The functions of a logger. -/
inductive Function
  | verbose | info | trace | warn | error

namespace ISrsLog

/-- A call of a function. -/
def call : ISrsLog → Function → System → Option Bytes → Bytes → Bytes → List Access
  | .file l, .verbose => l.verbose
  | .file l, .info => l.info
  | .file l, .trace => l.trace
  | .file l, .warn => l.warn
  | .file l, .error => l.error
  | .console l, .verbose => l.verbose
  | .console l, .info => l.info
  | .console l, .trace => l.trace
  | .console l, .warn => l.warn
  | .console l, .error => l.error

/-- The header of a call. -/
def header (log : ISrsLog) (f : Function) (sys : System) (tag : Option Bytes) (cid : Bytes) :
    List Access × Option Int :=
  let header := match log with
    | .file l => l.header
    | .console l => l.header
  match f with
  | .verbose => header sys .verbose false tag cid "Verb"
  | .info => header sys .info false tag cid "Debug"
  | .trace => header sys .trace false tag cid "Trace"
  | .warn => header sys .warn true tag cid "Warn"
  | .error => header sys .error true tag cid "Error"

/-- The size that header and message take is an `int`, and with the text of `errno` where that is
printed; `SrsConsoleLog::error` prints it where `errno` is set, and needs room for it. -/
def Fits (log : ISrsLog) (f : Function) (sys : System) (size : Int) : Prop :=
  match log, f with
  | .file _, .error => size < 2 ^ 31 ∧
      (sys.errnoAfter ≠ 0 → size < logMaxSize → size + printed (errnoText sys) < 2 ^ 31)
  | .file _, _ => size < 2 ^ 31
  | .console _, .error => sys.errnoAfter ≠ 0 → size < srsBasicLogSize
  | .console _, _ => True

end ISrsLog

/-! ## Sizes -/

theorem printed_ge (text : Bytes) : -1 ≤ printed text := by
  unfold printed
  split_ifs <;> omega

theorem printed_lt (text : Bytes) : printed text < 2 ^ 31 := by
  unfold printed
  split_ifs <;> omega

/-- The capacity where an `int` is in the buffer. -/
theorem sizeT_room {n size : Int} (hn : n < 2 ^ 31) (hsize : 0 ≤ size) (hlt : size < n) :
    (sizeT (int32 (n - size)) : Int) = n - size := by
  rw [sizeT, int32, wrap_eq_self (by omega) (by omega)]
  omega

theorem print_inside {n size : Int} (hn : n < 2 ^ 31) (text : Bytes) :
    (Access.print size (sizeT (int32 (n - size))) text).Inside n ↔ 0 ≤ size ∧ size < n := by
  refine ⟨fun h => ⟨h.1, h.2.1⟩, fun ⟨hsize, hlt⟩ => ?_⟩
  have hroom := sizeT_room hn hsize hlt
  exact ⟨hsize, hlt, by omega, hroom⟩

/-- The sum of a size and of what was printed is not negative, exactly if it is an `int`. -/
theorem int32_nonneg_iff {size : Int} (text : Bytes) (hsize : 1 ≤ size) (hlt : size < 2 ^ 31) :
    0 ≤ int32 (size + printed text) ↔ size + printed text < 2 ^ 31 := by
  have hge := printed_ge text
  have hprinted := printed_lt text
  exact wrap_nonneg_iff (by omega) (by omega)

/-! ## The header -/

/-- What is known of a header: it is in the buffer, and its size is when it is accepted. -/
structure Accepted (header : List Access × Option Int) : Prop where
  inside : ∀ a ∈ header.1, a.Inside 8192
  size : ∀ size, header.2 = some size → 2 ≤ size ∧ size < 8192

theorem accepted_none : Accepted ([], none) where
  inside := fun _ ha => absurd ha List.not_mem_nil
  size := fun _ h => by cases h

theorem two_le_length_boxed (text : Bytes) : 2 ≤ (boxed text).length := by
  have hopen : (ascii "[").length = 1 := rfl
  have hclose : (ascii "]").length = 1 := rfl
  simp only [boxed, List.length_append, hopen, hclose]
  omega

theorem two_le_length_headerText (sys : System) (now : Tm) (usec : Int) (dangerous : Bool)
    (tag : Option Bytes) (cid level : Bytes) :
    2 ≤ (headerText sys now usec dangerous tag cid level).length := by
  have h := two_le_length_boxed (cStr cid)
  unfold headerText
  by_cases hdangerous : dangerous = true
  · rw [if_pos hdangerous]
    cases tag <;> simp only [List.length_append] <;> omega
  · rw [if_neg hdangerous]
    cases tag <;> simp only [List.length_append] <;> omega

theorem srsLogHeader_accepted (sys : System) (utc dangerous : Bool) (tag : Option Bytes)
    (cid level : Bytes) : Accepted (srsLogHeader sys 8192 utc dangerous tag cid level) := by
  unfold srsLogHeader
  split
  · exact accepted_none
  · split
    · exact accepted_none
    · rename_i tv _ _ now _
      constructor
      · intro a ha
        obtain rfl := List.mem_singleton.mp ha
        exact ⟨le_refl _, by decide, by decide, by decide⟩
      · intro size h
        have hlength := two_le_length_headerText sys now tv.2 dangerous tag cid level
        simp only at h
        split_ifs at h with hlarge hfailed
        have hprinted := Option.some.inj h
        unfold printed at *
        split_ifs at * <;> omega

theorem Accepted.unless {c : Prop} [Decidable c] {header : List Access × Option Int}
    (h : Accepted header) : Accepted (if c then ([], none) else header) := by
  by_cases hc : c
  · rw [if_pos hc]
    exact accepted_none
  · rw [if_neg hc]
    exact h

theorem SrsFileLog.header_accepted (l : SrsFileLog) (sys : System) (own : SrsLogLevel)
    (dangerous : Bool) (tag : Option Bytes) (cid : Bytes) (level : String) :
    Accepted (l.header sys own dangerous tag cid level) :=
  (srsLogHeader_accepted ..).unless

theorem SrsConsoleLog.header_accepted (l : SrsConsoleLog) (sys : System) (own : SrsLogLevel)
    (dangerous : Bool) (tag : Option Bytes) (cid : Bytes) (level : String) :
    Accepted (l.header sys own dangerous tag cid level) :=
  (srsLogHeader_accepted ..).unless

/-! ## The rest of a line -/

/-- Every access is in the buffer. -/
def AllInside (accesses : List Access) : Prop := ∀ a ∈ accesses, a.Inside 8192

theorem allInside_cons {a : Access} {accesses : List Access} :
    AllInside (a :: accesses) ↔ a.Inside 8192 ∧ AllInside accesses := List.forall_mem_cons

theorem allInside_nil : AllInside [] := fun _ ha => absurd ha List.not_mem_nil

/-- Header and message are in the buffer, so what counts is the rest, where it is reached. -/
theorem headed_inside_iff {header : List Access × Option Int} {msg : Bytes}
    {rest : Int → List Access} {P : Int → Prop} (h : Accepted header)
    (hrest : ∀ size, 2 ≤ size → size < 8192 →
      (AllInside (rest (int32 (size + printed msg))) ↔ P (size + printed msg))) :
    AllInside (headed header 8192 msg rest) ↔
      ∀ size, header.2 = some size → P (size + printed msg) := by
  unfold headed
  cases hsize : header.2 with
  | none => exact iff_of_true h.inside fun size h => by cases h
  | some size =>
    obtain ⟨hlow, hhigh⟩ := h.size size hsize
    have hmsg := (print_inside (by decide) msg).mpr ⟨show 0 ≤ size by omega, hhigh⟩
    calc AllInside (header.1 ++ .print size (sizeT (int32 (8192 - size))) msg
          :: rest (int32 (size + printed msg)))
        ↔ AllInside (rest (int32 (size + printed msg))) :=
          ⟨fun hall => (allInside_cons.mp (List.forall_mem_append.mp hall).2).2,
            fun hall => List.forall_mem_append.mpr
              ⟨h.inside, List.forall_mem_cons.mpr ⟨hmsg, hall⟩⟩⟩
      _ ↔ P (size + printed msg) := hrest size hlow hhigh
      _ ↔ ∀ size', some size = some size' → P (size' + printed msg) :=
          ⟨fun hP size' heq => Option.some.inj heq ▸ hP, fun hP => hP size rfl⟩

/-- The newline is in the buffer, unless the size is negative. -/
theorem writeLog_inside_iff (size : Int) : AllInside (SrsFileLog.writeLog size) ↔ 0 ≤ size := by
  have hmin : min (logMaxSize - 1 - logTailSize) size = min 8190 size := rfl
  rw [SrsFileLog.writeLog, allInside_cons, and_iff_left allInside_nil, Access.Inside, hmin]
  omega

theorem writeLog_inside_iff_of_printed {size : Int} {text : Bytes} (hsize : 1 ≤ size)
    (hlt : size < 2 ^ 31) :
    AllInside (SrsFileLog.writeLog (int32 (size + printed text))) ↔ size + printed text < 2 ^ 31 :=
  (writeLog_inside_iff _).trans (int32_nonneg_iff text hsize hlt)

/-- `SrsFileLog::error` checks the size before it prints the text of `errno`. -/
theorem SrsFileLog.addStrerror_inside_iff (sys : System) {size : Int} {msg : Bytes}
    (hlow : 2 ≤ size) (hhigh : size < 8192) :
    AllInside (addStrerror sys (int32 (size + printed msg))) ↔
      size + printed msg < 2 ^ 31 ∧ (sys.errnoAfter ≠ 0 → size + printed msg < logMaxSize →
        size + printed msg + printed (errnoText sys) < 2 ^ 31) := by
  have hge := printed_ge msg
  have hnonneg := int32_nonneg_iff msg (show 1 ≤ size by omega) (by omega)
  unfold addStrerror
  by_cases hint : size + printed msg < 2 ^ 31
  · rw [int32, wrap_eq_self (by omega) hint]
    by_cases hprint : sys.errnoAfter ≠ 0 ∧ size + printed msg < logMaxSize
    · have hmax : size + printed msg < 8192 := hprint.2
      rw [if_pos hprint, allInside_cons, logMaxSize, print_inside (by decide),
        writeLog_inside_iff_of_printed (by omega) (by omega)]
      exact ⟨fun h => ⟨hint, fun _ _ => h.2⟩,
        fun h => ⟨⟨by omega, hmax⟩, h.2 hprint.1 hmax⟩⟩
    · rw [if_neg hprint, writeLog_inside_iff]
      exact iff_of_true (by omega) ⟨hint, fun herrno hlt => absurd ⟨herrno, hlt⟩ hprint⟩
  · -- the size has wrapped around, and whatever comes next is before the buffer
    refine iff_of_false (fun h => ?_) fun h => hint h.1
    split_ifs at h with hprint
    · exact hint (hnonneg.mp ((print_inside (by decide) _).mp (allInside_cons.mp h).1).1)
    · exact hint (hnonneg.mp ((writeLog_inside_iff _).mp h))

/-- `SrsConsoleLog::error` does not. -/
theorem SrsConsoleLog.addStrerror_inside_iff (sys : System) {size : Int} {msg : Bytes}
    (hlow : 2 ≤ size) (hhigh : size < 8192) :
    AllInside (addStrerror sys (int32 (size + printed msg))) ↔
      (sys.errnoAfter ≠ 0 → size + printed msg < srsBasicLogSize) := by
  have hge := printed_ge msg
  have hnonneg := int32_nonneg_iff msg (show 1 ≤ size by omega) (by omega)
  unfold addStrerror
  by_cases herrno : sys.errnoAfter ≠ 0
  · rw [if_pos herrno, allInside_cons, and_iff_left allInside_nil, srsBasicLogSize,
      print_inside (by decide)]
    by_cases hint : size + printed msg < 2 ^ 31
    · rw [int32, wrap_eq_self (by omega) hint]
      exact ⟨fun h _ => h.2, fun h => ⟨by omega, h herrno⟩⟩
    · exact iff_of_false (fun h => hint (hnonneg.mp h.1)) fun h => hint (by have := h herrno; omega)
  · rw [if_neg herrno]
    exact iff_of_true allInside_nil fun h => absurd h herrno

/-! ## All ten functions -/

section

variable (sys : System) (own : SrsLogLevel) (dangerous : Bool) (tag : Option Bytes)
  (cid msg : Bytes) (level : String)

/-- `verbose`, `info`, `trace` and `warn` of a `SrsFileLog`. -/
theorem SrsFileLog.line_inside_iff (l : SrsFileLog) :
    AllInside (headed (l.header sys own dangerous tag cid level) logMaxSize msg writeLog) ↔
      ∀ size, (l.header sys own dangerous tag cid level).2 = some size →
        size + printed msg < 2 ^ 31 :=
  headed_inside_iff (P := fun size => size < 2 ^ 31) (l.header_accepted ..) fun _ hlow hhigh =>
    writeLog_inside_iff_of_printed (by omega) (by omega)

/-- `verbose`, `info`, `trace` and `warn` of a `SrsConsoleLog`. -/
theorem SrsConsoleLog.line_inside (l : SrsConsoleLog) :
    AllInside (headed (l.header sys own dangerous tag cid level) srsBasicLogSize msg fun _ => []) :=
  (headed_inside_iff (P := fun _ => True) (l.header_accepted ..) fun _ _ _ =>
    iff_of_true allInside_nil trivial).mpr fun _ _ => trivial

end

namespace ISrsLog

variable (log : ISrsLog) (f : Function) (sys : System) (tag : Option Bytes) (cid msg : Bytes)

/-- **A call stays in its buffer, exactly if the size of its header and message fits.** -/
theorem inside_iff :
    AllInside (log.call f sys tag cid msg) ↔
      ∀ size, (log.header f sys tag cid).2 = some size → log.Fits f sys (size + printed msg) := by
  cases log with
  | file l =>
    cases f with
    | error =>
      exact headed_inside_iff (l.header_accepted sys .error true tag cid "Error")
        fun size hlow hhigh => SrsFileLog.addStrerror_inside_iff sys hlow hhigh
    | _ => exact SrsFileLog.line_inside_iff ..
  | console l =>
    cases f with
    | error =>
      exact headed_inside_iff (l.header_accepted sys .error true tag cid "Error")
        fun size hlow hhigh => SrsConsoleLog.addStrerror_inside_iff sys hlow hhigh
    | _ => exact iff_of_true (SrsConsoleLog.line_inside sys _ _ tag cid msg _ l) fun _ _ => trivial

end ISrsLog

/-- A system at the start of 1970, with `errno` 11 after the message. -/
def sampleSystem : System where
  gettimeofday := some (0, 0)
  gmtime := fun _ => some ⟨70, 0, 1, 0, 0, 0⟩
  localtime := fun _ => none
  getpid := 1
  errno := 0
  errnoAfter := 11
  strerror := fun _ => ascii "Try again"

/-- Behind a message of 8192 bytes, `SrsConsoleLog::error` prints the text of `errno` past the end
of its buffer, with a capacity close to `2 ^ 64`. -/
theorem console_error_overruns :
    Access.print 8233 (2 ^ 64 - 41) (ascii "(Try again)") ∈
      (ISrsLog.console ⟨.trace, true⟩).call .error sampleSystem none [] (List.replicate 8192 0x61) ∧
    ¬ AllInside ((ISrsLog.console ⟨.trace, true⟩).call .error sampleSystem none []
      (List.replicate 8192 0x61)) := by
  have hheader : (SrsConsoleLog.header ⟨.trace, true⟩ sampleSystem .error true none [] "Error").2 =
      some 41 := by decide
  have hmsg : printed (List.replicate 8192 0x61) = 8192 := by
    rw [printed, List.length_replicate]
    rfl
  have herrno : errnoText sampleSystem = ascii "(Try again)" := by decide
  have hmem : Access.print 8233 (2 ^ 64 - 41) (ascii "(Try again)") ∈
      (ISrsLog.console ⟨.trace, true⟩).call .error sampleSystem none []
        (List.replicate 8192 0x61) := by
    rw [ISrsLog.call, SrsConsoleLog.error, headed, hheader]
    simp only [hmsg]
    refine List.mem_append_right _ (List.mem_cons_of_mem _ ?_)
    rw [SrsConsoleLog.addStrerror, herrno]
    exact List.mem_singleton.mpr rfl
  exact ⟨hmem, fun h => absurd (h _ hmem).2.1 (by decide)⟩

/-! ## The memory around the buffer -/

/-- What an access writes: `snprintf` cuts the text to its capacity, with a zero at the end. -/
def Access.written : Access → Int × Bytes
  | .print offset capacity text =>
    (offset, if capacity = 0 then [] else text.take (capacity - 1) ++ [0])
  | .store index c => (index, [c])

theorem Access.Inside.written {n : Int} {a : Access} (h : a.Inside n) :
    0 ≤ a.written.1 ∧ a.written.1 + a.written.2.length ≤ n := by
  cases a with
  | print offset capacity text =>
    obtain ⟨hlow, -, hpositive, hcapacity⟩ := h
    have hlength : (text.take (capacity - 1)).length ≤ capacity - 1 := List.length_take_le _ _
    rw [Access.written, if_neg hpositive.ne']
    simp only [List.length_append, List.length_singleton]
    omega
  | store index c =>
    obtain ⟨hlow, hlt⟩ := h
    exact ⟨hlow, hlt⟩

/-- **Accesses that are in the buffer leave the memory around it as it is.** -/
theorem AllInside.outside {accesses : List Access} (h : AllInside accesses) (m : Int → UInt8)
    {i : Int} (hi : i < 0 ∨ 8192 ≤ i) :
    Memory.storeAll m (accesses.map Access.written) i = m i := by
  refine Memory.storeAll_outside (fun s hs => ?_) hi
  obtain ⟨a, ha, rfl⟩ := List.mem_map.mp hs
  exact (h a ha).written

end Ssms.App.Log
