import Ssms.Kernel.Utility
import Ssms.Lib.Chain
import Ssms.Lib.Run

/-!
# Chains of errors (`srs_kernel_error.cpp`)

`Ssms.Kernel.SrsCplxError` has what a caller can ask an error for. Here an error is the object the
pointer points to, with the error it wraps, where it was made, and the description that
`description()` keeps. The objects are in a heap, and a pointer is a place there or null; an
operation on a pointer that is neither has no result, and neither has a loop that does not end. The
process id is that of the process, `pid`. `summary` is declared and nowhere defined.

* `Cause`: what an error is about, a code and what was said at each link, outermost first.
* **`stands_of_built`**: an error that was made by `create`, `wrap` and `copy` stands for its cause,
  whatever else happens to the errors around it.
* **`description_of_built`**: code and description are those of the cause, and a copy is described
  like the original from then on.
* `hasCause_create`, `hasCause_wrap`: `Ssms.Kernel.SrsCplxError` has the code and the messages of
  the cause.
-/

namespace Ssms.Kernel.ErrorChain

open Ssms.Lib

/-- `ERROR_SUCCESS`. -/
def errorSuccess : Int := 0

/-- `endl`. -/
def endl : Bytes := [0x0A]

/-- `SrsCplxError`. -/
structure SrsCplxError where
  code : Int
  wrapped : Option Nat
  msg : Bytes
  func : Bytes
  file : Bytes
  line : Int
  cid : Bytes
  rerrno : Int
  desc : Bytes

/-- The objects, by the order in which they were allocated. -/
abbrev Heap := List SrsCplxError

/-- A call of `srs_error_new` or `srs_error_wrap`: where it is, the text of its format with the
arguments, `errno`, and the id of the context if there is one. -/
structure Call where
  func : Bytes
  file : Bytes
  line : Int
  text : Bytes
  errno : Int
  context : Option Bytes

namespace SrsCplxError

/-- The constructor. -/
def new : SrsCplxError := ⟨errorSuccess, none, [], [], [], 0, [], 0, []⟩

/-- What `create` and `wrap` store. -/
def ofCall (c : Call) (code : Int) (wrapped : Option Nat) : SrsCplxError :=
  let err := { new with
    func := cStr c.func, file := cStr c.file, line := c.line, code := code, rerrno := c.errno,
    msg := cStr (snprintf 4096 c.text), wrapped := wrapped }
  match c.context with
  | some id => { err with cid := id }
  | none => err

/-- `error_code(err)`. -/
def errorCode (heap : Heap) : Option Nat → Option Int
  | none => some errorSuccess
  | some err => heap[err]?.map code

/-- `create(func, file, line, code, fmt, ..)`. -/
def create (heap : Heap) (c : Call) (code : Int) : Heap × Nat :=
  (heap ++ [ofCall c code none], heap.length)

/-- `wrap(func, file, line, v, fmt, ..)`: the code is that of `v`. -/
def wrap (heap : Heap) (c : Call) : Option Nat → Option (Heap × Nat)
  | none => some (heap ++ [ofCall c errorSuccess none], heap.length)
  | some v => heap[v]?.map fun e => (heap ++ [ofCall c e.code (some v)], heap.length)

/-- `copy(from)`: the copy of what it wraps is made after the object. -/
def copyLoop : Nat → Heap → Option Nat → Option (Heap × Option Nat)
  | _, heap, none => some (heap, none)
  | 0, _, some _ => none
  | fuel + 1, heap, some p =>
    heap[p]?.bind fun e =>
      (copyLoop fuel (heap ++ [new]) e.wrapped).map fun r =>
        (r.1.set heap.length { e with wrapped := r.2 }, some heap.length)

def copy (heap : Heap) (p : Option Nat) : Option (Heap × Option Nat) :=
  copyLoop heap.length heap p

/-- The first loop of `description`. -/
def messages : Nat → Heap → Option Nat → Bytes → Option Bytes
  | _, _, none, ss => some ss
  | 0, _, some _, _ => none
  | fuel + 1, heap, some p, ss =>
    heap[p]?.bind fun next => messages fuel heap next.wrapped (ss ++ ascii " : " ++ next.msg)

/-- The second loop: the line of an object, and a line break before the next one. -/
def locations (pid : Int) : Nat → Heap → Option Nat → Bytes → Option Bytes
  | _, _, none, ss => some ss
  | 0, _, some _, _ => none
  | fuel + 1, heap, some p, ss =>
    heap[p]?.bind fun next =>
      let ss := ss ++ ascii "thread [" ++ Decimal.numeral pid ++ ascii "][" ++ cStr next.cid
        ++ ascii "]: " ++ next.func ++ ascii "() [" ++ next.file ++ ascii ":"
        ++ Decimal.numeral next.line ++ ascii "]" ++ ascii "[errno=" ++ Decimal.numeral next.rerrno
        ++ ascii "]"
      locations pid fuel heap next.wrapped (if next.wrapped.isSome then ss ++ endl else ss)

/-- `description()` of an object: the text, and the heap where the object keeps it. -/
def describe (pid : Int) (heap : Heap) (this : Nat) : Option (Bytes × Heap) :=
  heap[this]?.bind fun e =>
    if e.desc = [] then
      (messages heap.length heap (some this) (ascii "code=" ++ Decimal.numeral e.code)).bind
        fun ss => (locations pid heap.length heap (some this) (ss ++ endl)).map
          fun desc => (desc, heap.set this { e with desc := desc })
    else some (e.desc, heap)

/-- `description(err)`. -/
def description (pid : Int) (heap : Heap) : Option Nat → Option (Bytes × Heap)
  | none => some (ascii "Success", heap)
  | some err => describe pid heap err

end SrsCplxError

/-! ## What an error is about -/

/-- What is said at one link of a chain. -/
structure Link where
  msg : Bytes
  func : Bytes
  file : Bytes
  line : Int
  cid : Bytes
  rerrno : Int

/-- The location line of a link. -/
def Link.location (pid : Int) (l : Link) : Bytes :=
  ascii "thread [" ++ Decimal.numeral pid ++ ascii "][" ++ cStr l.cid ++ ascii "]: " ++ l.func
    ++ ascii "() [" ++ l.file ++ ascii ":" ++ Decimal.numeral l.line ++ ascii "]" ++ ascii "[errno="
    ++ Decimal.numeral l.rerrno ++ ascii "]"

/-- A code, and the links, outermost first. -/
structure Cause where
  code : Int
  links : List Link

/-- The code, the message of every link, and in lines of their own the location of every link. -/
def Cause.text (pid : Int) (c : Cause) : Bytes :=
  ascii "code=" ++ Decimal.numeral c.code ++ c.links.flatMap (fun l => ascii " : " ++ l.msg) ++ endl
    ++ List.intercalate endl (c.links.map (Link.location pid))

/-- What a call says. -/
def Call.link (c : Call) : Link :=
  ⟨cStr (snprintf 4096 c.text), cStr c.func, cStr c.file, c.line, c.context.getD [], c.errno⟩

namespace SrsCplxError

/-- What an object says. -/
def link (e : SrsCplxError) : Link := ⟨e.msg, e.func, e.file, e.line, e.cid, e.rerrno⟩

/-- What an object says, with its code. -/
def said (e : SrsCplxError) : Int × Link := (e.code, e.link)

/-- What an object is about, with the objects it wraps. -/
def cause (e : SrsCplxError) (es : List SrsCplxError) : Cause := ⟨e.code, (e :: es).map link⟩

theorem cause_congr {e e' : SrsCplxError} {es es' : List SrsCplxError} (he : e'.said = e.said)
    (hes : es'.map said = es.map said) : e'.cause es' = e.cause es := by
  obtain ⟨hcode, hlink⟩ := Prod.mk.inj he
  have hlinks := congrArg (List.map Prod.snd) hes
  rw [List.map_map, List.map_map] at hlinks
  rw [cause, cause, hcode, List.map_cons, hlink, List.map_cons]
  exact congrArg (fun links => Cause.mk e.code (e.link :: links)) hlinks

theorem cause_ofCall (c : Call) (code : Int) (wrapped : Option Nat) (es : List SrsCplxError) :
    (ofCall c code wrapped).cause es = ⟨code, c.link :: es.map link⟩ := by
  unfold ofCall Call.link
  cases c.context <;> rfl

theorem wrapped_ofCall (c : Call) (code : Int) (wrapped : Option Nat) :
    (ofCall c code wrapped).wrapped = wrapped := by
  unfold ofCall
  cases c.context <;> rfl

theorem desc_ofCall (c : Call) (code : Int) (wrapped : Option Nat) :
    (ofCall c code wrapped).desc = [] := by
  unfold ofCall
  cases c.context <;> rfl

end SrsCplxError

/-! ## The loops -/

open ErrorChain.SrsCplxError

variable {heap heap' : Heap} {p : Option Nat} {es : List SrsCplxError} {fuel : Nat} {pid : Int}

theorem messages_eq (h : Chain wrapped heap p es) (hfuel : es.length ≤ fuel) (ss : Bytes) :
    messages fuel heap p ss = some (ss ++ (es.map link).flatMap fun l => ascii " : " ++ l.msg) := by
  induction h generalizing fuel ss with
  | null =>
    rw [List.map_nil, List.flatMap_nil, List.append_nil]
    cases fuel <;> rfl
  | @node p e es here rest ih =>
    cases fuel with
    | zero => exact absurd hfuel (Nat.not_succ_le_zero _)
    | succ fuel =>
      rw [messages, here, Option.bind_some, ih (Nat.le_of_succ_le_succ hfuel), List.map_cons,
        List.flatMap_cons]
      simp only [List.append_assoc, link]

theorem locations_eq (h : Chain wrapped heap p es) (hfuel : es.length ≤ fuel) (ss : Bytes) :
    locations pid fuel heap p ss =
      some (ss ++ List.intercalate endl ((es.map link).map (Link.location pid))) := by
  induction h generalizing fuel ss with
  | null =>
    cases fuel <;> simp [locations, List.intercalate]
  | @node p e es here rest ih =>
    cases fuel with
    | zero => exact absurd hfuel (Nat.not_succ_le_zero _)
    | succ fuel =>
      rw [locations, here, Option.bind_some, ih (Nat.le_of_succ_le_succ hfuel), rest.isSome_eq]
      cases es with
      | nil => simp [List.intercalate, Link.location, link]
      | cons e' es => simp [List.intercalate, Link.location, link]

/-! ## The heap -/

/-- What holds of an object: what it wraps is a chain, and a description that it keeps is that of
its cause. -/
def SoundAt (pid : Int) (heap : Heap) (e : SrsCplxError) : Prop :=
  ∃ es, Chain wrapped heap e.wrapped es ∧ (e.desc = [] ∨ e.desc = (e.cause es).text pid)

/-- It holds of every object. -/
def Sound (pid : Int) (heap : Heap) : Prop := ∀ e ∈ heap, SoundAt pid heap e

/-- The objects keep what they wrap and what they say. -/
def Keeps (heap heap' : Heap) : Prop :=
  ∀ (p : Nat) e, heap[p]? = some e →
    ∃ e', heap'[p]? = some e' ∧ e'.wrapped = e.wrapped ∧ e'.said = e.said

/-- The object at a pointer is about a cause. -/
def Stands (heap : Heap) (p : Nat) (c : Cause) : Prop :=
  ∃ e es, Chain wrapped heap (some p) (e :: es) ∧ e.cause es = c

theorem Keeps.refl (heap : Heap) : Keeps heap heap := fun _ e here => ⟨e, here, rfl, rfl⟩

theorem Keeps.trans {heap'' : Heap} (h : Keeps heap heap') (h' : Keeps heap' heap'') :
    Keeps heap heap'' := by
  intro p e here
  obtain ⟨e', here', hwrapped, hsaid⟩ := h p e here
  obtain ⟨e'', here'', hwrapped', hsaid'⟩ := h' p e' here'
  exact ⟨e'', here'', hwrapped'.trans hwrapped, hsaid'.trans hsaid⟩

theorem Keeps.append (heap added : Heap) : Keeps heap (heap ++ added) := fun p e here =>
  ⟨e, by rw [List.getElem?_append_left (List.getElem?_eq_some_iff.mp here).1, here], rfl, rfl⟩

/-- An object that keeps its description says what it said. -/
theorem Keeps.set_desc {this : Nat} {e : SrsCplxError} (here : heap[this]? = some e)
    (desc : Bytes) :
    Keeps heap (heap.set this { e with desc := desc }) := by
  intro p e' here'
  by_cases hp : p = this
  · subst hp
    obtain rfl := Option.some.inj (here.symm.trans here')
    exact ⟨{ e with desc := desc }, List.getElem?_set_self (List.getElem?_eq_some_iff.mp here).1,
      rfl, rfl⟩
  · exact ⟨e', by rw [List.getElem?_set_ne (Ne.symm hp), here'], rfl, rfl⟩

theorem Keeps.chain (h : Keeps heap heap') (hchain : Chain wrapped heap p es) :
    ∃ es', Chain wrapped heap' p es' ∧ es'.map said = es.map said :=
  hchain.transfer said h

theorem Stands.keeps {p : Nat} {c : Cause} (h : Stands heap p c) (hkeep : Keeps heap heap') :
    Stands heap' p c := by
  obtain ⟨e, es, hchain, rfl⟩ := h
  obtain ⟨es', hchain', hmap⟩ := hkeep.chain hchain
  cases es' with
  | nil => exact absurd hmap (List.cons_ne_nil _ _).symm
  | cons e' es' =>
    obtain ⟨hhead, hrest⟩ := List.cons_eq_cons.mp hmap
    exact ⟨e', es', hchain', cause_congr hhead hrest⟩

theorem SoundAt.keeps {e : SrsCplxError} (h : SoundAt pid heap e) (hkeep : Keeps heap heap') :
    SoundAt pid heap' e := by
  obtain ⟨es, hchain, hdesc⟩ := h
  obtain ⟨es', hchain', hmap⟩ := hkeep.chain hchain
  exact ⟨es', hchain', cause_congr rfl hmap ▸ hdesc⟩

/-- New objects are at the end of a heap. -/
theorem Sound.append {added : Heap} (h : Sound pid heap)
    (hadded : ∀ e ∈ added, SoundAt pid (heap ++ added) e) : Sound pid (heap ++ added) :=
  List.forall_mem_append.mpr ⟨fun e he => (h e he).keeps (.append heap added), hadded⟩

/-! ## The operations -/

/-- An object without a description makes one, and keeps it. -/
theorem describe_eq {this : Nat} {e : SrsCplxError} (h : Chain wrapped heap (some this) (e :: es))
    (hempty : e.desc = []) :
    describe pid heap this = some ((e.cause es).text pid,
      heap.set this { e with desc := (e.cause es).text pid }) := by
  have hle := h.length_le
  have hmessages := messages_eq h hle (ascii "code=" ++ Decimal.numeral e.code)
  cases h with
  | node here rest =>
    rw [describe, here, Option.bind_some, if_pos hempty, hmessages, Option.bind_some,
      locations_eq (.node here rest) hle]
    rfl

theorem Sound.set_desc (hsound : Sound pid heap) {this : Nat} {e : SrsCplxError}
    (here : heap[this]? = some e) (rest : Chain wrapped heap e.wrapped es) :
    Sound pid (heap.set this { e with desc := (e.cause es).text pid }) := by
  have hkeep := Keeps.set_desc here ((e.cause es).text pid)
  intro e' he'
  rcases List.mem_or_eq_of_mem_set he' with he' | rfl
  · exact (hsound e' he').keeps hkeep
  · obtain ⟨es', hrest, hmap⟩ := hkeep.chain rest
    have hcause : { e with desc := (e.cause es).text pid }.cause es' = e.cause es :=
      cause_congr rfl hmap
    refine ⟨es', hrest, .inr ?_⟩
    rw [hcause]

/-- **The description is that of the cause, and the heap stays what it is about.** -/
theorem Stands.describe {p : Nat} {c : Cause} (hsound : Sound pid heap) (h : Stands heap p c) :
    ∃ heap', describe pid heap p = some (c.text pid, heap') ∧ Keeps heap heap' ∧
      Sound pid heap' := by
  obtain ⟨e, es, hchain, rfl⟩ := h
  cases hchain with
  | node here rest =>
    by_cases hempty : e.desc = []
    · exact ⟨_, describe_eq (.node here rest) hempty, .set_desc here _, hsound.set_desc here rest⟩
    · obtain ⟨es', hrest, hdesc⟩ := hsound e (List.mem_of_getElem? here)
      obtain rfl := hrest.unique rest
      rw [SrsCplxError.describe, here, Option.bind_some, if_neg hempty, hdesc.resolve_left hempty]
      exact ⟨heap, rfl, .refl heap, hsound⟩

/-- **A new object is about what its call says, and then what it wraps.** -/
theorem Sound.new_object (hsound : Sound pid heap) (c : Call) (code : Int) {v : Option Nat}
    (hchain : Chain wrapped heap v es) :
    Stands (heap ++ [ofCall c code v]) heap.length ⟨code, c.link :: es.map link⟩ ∧
      Sound pid (heap ++ [ofCall c code v]) := by
  have hrest : Chain wrapped (heap ++ [ofCall c code v]) (ofCall c code v).wrapped es := by
    rw [wrapped_ofCall]
    exact hchain.append _
  refine ⟨⟨_, es, .node (by simp) hrest, cause_ofCall c code v es⟩, hsound.append ?_⟩
  intro e he
  obtain rfl := List.mem_singleton.mp he
  exact ⟨es, hrest, .inl (desc_ofCall c code v)⟩

/-- **An error that is wrapped keeps its code.** -/
theorem Stands.wrap {p : Nat} {c : Cause} (hsound : Sound pid heap) (h : Stands heap p c)
    (call : Call) :
    ∃ heap' q, wrap heap call (some p) = some (heap', q) ∧ Keeps heap heap' ∧ Sound pid heap' ∧
      Stands heap' q ⟨c.code, call.link :: c.links⟩ := by
  obtain ⟨e, es, hchain, rfl⟩ := h
  obtain ⟨hstands, hsound'⟩ := hsound.new_object call e.code hchain
  refine ⟨_, heap.length, ?_, .append heap _, hsound', hstands⟩
  cases hchain with
  | node here rest => rw [SrsCplxError.wrap, here, Option.map_some]

/-- A pointer is null, or it points to an object, which is about something, or to nothing. -/
theorem Sound.pointer (hsound : Sound pid heap) (v : Option Nat) :
    v = none ∨ (∃ p c, v = some p ∧ Stands heap p c) ∨ ∃ p : Nat, v = some p ∧ heap[p]? = none := by
  cases v with
  | none => exact .inl rfl
  | some p =>
    refine .inr ?_
    cases here : heap[p]? with
    | none => exact .inr ⟨p, rfl, here⟩
    | some e =>
      obtain ⟨es, hchain, -⟩ := hsound e (List.mem_of_getElem? here)
      exact .inl ⟨p, _, rfl, e, es, .node here hchain, rfl⟩

/-! ## Copies -/

/-- The pointer to the first of the objects from a place on. -/
def first (n : Nat) : List SrsCplxError → Option Nat
  | [] => none
  | _ :: _ => some n

/-- Copies of objects from a place on, each one pointing to the next. -/
def copies (n : Nat) : List SrsCplxError → Heap
  | [] => []
  | e :: es => { e with wrapped := first (n + 1) es } :: copies (n + 1) es

/-- **`copy` puts the copies at the end of the heap.** -/
theorem copyLoop_eq (h : Chain wrapped heap p es) (hfuel : es.length ≤ fuel) :
    copyLoop fuel heap p = some (heap ++ copies heap.length es, first heap.length es) := by
  induction es generalizing heap p fuel with
  | nil =>
    cases h
    rw [copies, List.append_nil]
    cases fuel <;> rfl
  | cons e es ih =>
    cases h with
    | @node p e es here rest =>
      cases fuel with
      | zero => exact absurd hfuel (Nat.not_succ_le_zero _)
      | succ fuel =>
        rw [copyLoop, here, Option.bind_some, ih (rest.append [new]) (Nat.le_of_succ_le_succ hfuel)]
        simp [copies, first]

theorem copyLoop_of_none {p : Nat} (h : heap[p]? = none) (fuel : Nat) :
    copyLoop fuel heap (some p) = none := by
  cases fuel with
  | zero => rfl
  | succ fuel => rw [copyLoop, h, Option.bind_none]

theorem map_said_copies (n : Nat) (es : List SrsCplxError) :
    (copies n es).map said = es.map said := by
  induction es generalizing n with
  | nil => rfl
  | cons e es ih => exact congrArg (e.said :: ·) (ih (n + 1))

/-- The first copy, and the others behind it. -/
theorem append_copies_cons (heap : Heap) (e : SrsCplxError) (es : List SrsCplxError) :
    heap ++ copies heap.length (e :: es) =
      (heap ++ [{ e with wrapped := first (heap.length + 1) es }]) ++
        copies (heap ++ [{ e with wrapped := first (heap.length + 1) es }]).length es := by
  simp [copies]

/-- The copies are a chain. -/
theorem chain_copies (heap : Heap) (es : List SrsCplxError) :
    Chain wrapped (heap ++ copies heap.length es) (first heap.length es)
      (copies heap.length es) := by
  induction es generalizing heap with
  | nil => exact .null
  | cons e es ih =>
    have hrest := ih (heap ++ [{ e with wrapped := first (heap.length + 1) es }])
    rw [← append_copies_cons, List.length_append, List.length_singleton] at hrest
    exact .node (by simp [copies]) hrest

/-- A copy keeps the description of the original. -/
theorem soundAt_copies (hsound : Sound pid heap) (h : Chain wrapped heap p es) (front : Heap) :
    ∀ e ∈ copies front.length es, SoundAt pid (front ++ copies front.length es) e := by
  induction es generalizing p front with
  | nil => exact fun e he => absurd he List.not_mem_nil
  | cons e es ih =>
    cases h with
    | node here rest =>
      have hothers := ih rest (front ++ [{ e with wrapped := first (front.length + 1) es }])
      have hchain := chain_copies (front ++ [{ e with wrapped := first (front.length + 1) es }]) es
      rw [← append_copies_cons, List.length_append, List.length_singleton] at hothers hchain
      refine List.forall_mem_cons.mpr ⟨⟨copies (front.length + 1) es, hchain, ?_⟩, hothers⟩
      obtain ⟨es', hrest, hdesc⟩ := hsound e (List.mem_of_getElem? here)
      obtain rfl := hrest.unique rest
      have hcause : { e with wrapped := first (front.length + 1) es' }.cause
          (copies (front.length + 1) es') = e.cause es' := cause_congr rfl (map_said_copies _ es')
      rw [hcause]
      exact hdesc

/-- **A copy is about what the original is about.** -/
theorem Stands.copy {p : Nat} {c : Cause} (hsound : Sound pid heap) (h : Stands heap p c) :
    ∃ heap' q, copy heap (some p) = some (heap', some q) ∧ Keeps heap heap' ∧ Sound pid heap' ∧
      Stands heap' q c := by
  obtain ⟨e, es, hchain, rfl⟩ := h
  refine ⟨_, heap.length, copyLoop_eq hchain hchain.length_le, .append heap _,
    hsound.append (soundAt_copies hsound hchain heap), ?_⟩
  exact ⟨_, _, chain_copies heap (e :: es), cause_congr rfl (map_said_copies _ es)⟩

/-! ## Runs -/

/-- A step: an operation on any errors. -/
inductive Step (pid : Int) (heap : Heap) : Heap → Prop
  | create (c : Call) (code : Int) : Step pid heap (create heap c code).1
  | wrap (c : Call) (v : Option Nat) {heap' : Heap} {q : Nat}
      (h : wrap heap c v = some (heap', q)) : Step pid heap heap'
  | copy (v : Option Nat) {heap' : Heap} {q : Option Nat} (h : copy heap v = some (heap', q)) :
      Step pid heap heap'
  | description (v : Option Nat) {heap' : Heap} {text : Bytes}
      (h : description pid heap v = some (text, heap')) : Step pid heap heap'

/-- The heaps of the runs that begin with a heap. -/
abbrev Later (pid : Int) (heap : Heap) : Heap → Prop :=
  Run.Reached (fun s => s = heap) (Step pid)

/-- `p` is an error made by `create` and then `wrap` and `copy`, with any steps in between. -/
inductive Built (pid : Int) : Heap → Nat → Cause → Prop
  | create {heap : Heap} (h : Later pid [] heap) (c : Call) (code : Int) :
      Built pid (create heap c code).1 (create heap c code).2 ⟨code, [c.link]⟩
  | wrap {heap heap' : Heap} {p q : Nat} {cause : Cause} (h : Built pid heap p cause) {c : Call}
      (hwrap : wrap heap c (some p) = some (heap', q)) :
      Built pid heap' q ⟨cause.code, c.link :: cause.links⟩
  | copy {heap heap' : Heap} {p q : Nat} {cause : Cause} (h : Built pid heap p cause)
      (hcopy : copy heap (some p) = some (heap', some q)) : Built pid heap' q cause
  | step {heap heap' : Heap} {p : Nat} {cause : Cause} (h : Built pid heap p cause)
      (hstep : Step pid heap heap') : Built pid heap' p cause

/-- **Every step keeps what the objects are about, and the descriptions that they keep.** -/
theorem step_spec (hstep : Step pid heap heap') (hsound : Sound pid heap) :
    Keeps heap heap' ∧ Sound pid heap' := by
  cases hstep with
  | create c code => exact ⟨.append heap _, (hsound.new_object c code .null).2⟩
  | wrap c v h =>
    rcases hsound.pointer v with rfl | ⟨p, cause, rfl, hstands⟩ | ⟨p, rfl, hnone⟩
    · obtain ⟨rfl, -⟩ := Prod.mk.inj (Option.some.inj h)
      exact ⟨.append heap _, (hsound.new_object c errorSuccess .null).2⟩
    · obtain ⟨_, _, hwrap, hkeep, hsound', -⟩ := hstands.wrap hsound c
      obtain ⟨rfl, -⟩ := Prod.mk.inj (Option.some.inj (hwrap.symm.trans h))
      exact ⟨hkeep, hsound'⟩
    · rw [wrap, hnone] at h
      cases h
  | copy v h =>
    rcases hsound.pointer v with rfl | ⟨p, cause, rfl, hstands⟩ | ⟨p, rfl, hnone⟩
    · rw [copy, copyLoop_eq .null (Nat.zero_le _)] at h
      obtain ⟨rfl, -⟩ := Prod.mk.inj (Option.some.inj h)
      exact ⟨.append heap _, hsound.append (soundAt_copies hsound .null heap)⟩
    · obtain ⟨_, _, hcopy, hkeep, hsound', -⟩ := hstands.copy hsound
      obtain ⟨rfl, -⟩ := Prod.mk.inj (Option.some.inj (hcopy.symm.trans h))
      exact ⟨hkeep, hsound'⟩
    · rw [copy, copyLoop_of_none hnone] at h
      cases h
  | description v h =>
    rcases hsound.pointer v with rfl | ⟨p, cause, rfl, hstands⟩ | ⟨p, rfl, hnone⟩
    · obtain ⟨-, rfl⟩ := Prod.mk.inj (Option.some.inj h)
      exact ⟨.refl heap, hsound⟩
    · obtain ⟨_, hdescribe, hkeep, hsound'⟩ := hstands.describe hsound
      obtain ⟨-, rfl⟩ := Prod.mk.inj (Option.some.inj (hdescribe.symm.trans h))
      exact ⟨hkeep, hsound'⟩
    · rw [description, describe, hnone] at h
      cases h

theorem later_spec (h : Later pid heap heap') (hsound : Sound pid heap) :
    Keeps heap heap' ∧ Sound pid heap' := by
  induction h with
  | start h =>
    subst h
    exact ⟨.refl _, hsound⟩
  | step _ hstep ih =>
    obtain ⟨hkeep, hsound'⟩ := step_spec hstep ih.2
    exact ⟨ih.1.trans hkeep, hsound'⟩

theorem sound_nil (pid : Int) : Sound pid [] := fun _ he => absurd he List.not_mem_nil

/-- **An error stands for its cause.** -/
theorem stands_of_built {p : Nat} {c : Cause} (h : Built pid heap p c) :
    Sound pid heap ∧ Stands heap p c := by
  induction h with
  | create h c code =>
    have hsound := (later_spec h (sound_nil pid)).2
    exact (hsound.new_object c code .null).symm
  | @wrap heap heap' p q cause h c hwrap ih =>
    obtain ⟨_, _, hwrap', -, hsound, hstands⟩ := ih.2.wrap ih.1 c
    obtain ⟨rfl, rfl⟩ := Prod.mk.inj (Option.some.inj (hwrap'.symm.trans hwrap))
    exact ⟨hsound, hstands⟩
  | copy h hcopy ih =>
    obtain ⟨_, _, hcopy', -, hsound, hstands⟩ := ih.2.copy ih.1
    obtain ⟨rfl, hq⟩ := Prod.mk.inj (Option.some.inj (hcopy'.symm.trans hcopy))
    obtain rfl := Option.some.inj hq
    exact ⟨hsound, hstands⟩
  | step h hstep ih =>
    obtain ⟨hkeep, hsound⟩ := step_spec hstep ih.1
    exact ⟨hsound, ih.2.keeps hkeep⟩

theorem Stands.errorCode {p : Nat} {c : Cause} (h : Stands heap p c) :
    errorCode heap (some p) = some c.code := by
  obtain ⟨e, es, hchain, rfl⟩ := h
  cases hchain with
  | node here rest => rw [SrsCplxError.errorCode, here, Option.map_some, cause]

/-- The text of a description. -/
def described (pid : Int) (heap : Heap) (v : Option Nat) : Option Bytes :=
  (description pid heap v).map Prod.fst

theorem Stands.described {p : Nat} {c : Cause} (hsound : Sound pid heap) (h : Stands heap p c) :
    described pid heap (some p) = some (c.text pid) := by
  obtain ⟨heap', hdescribe, -⟩ := h.describe hsound
  rw [ErrorChain.described, description, hdescribe, Option.map_some]

/-- **An error has the code of its cause and is described by the code, every message and every
location, outermost first. A copy is described like the original, from then on.** -/
theorem description_of_built {p : Nat} {c : Cause} (h : Built pid heap p c) :
    errorCode heap (some p) = some c.code ∧
    described pid heap (some p) = some (ascii "code=" ++ Decimal.numeral c.code
      ++ c.links.flatMap (fun l => ascii " : " ++ l.msg) ++ endl
      ++ List.intercalate endl (c.links.map (Link.location pid))) ∧
    ∃ heap' q, copy heap (some p) = some (heap', some q) ∧
      ∀ later, Later pid heap' later →
        described pid later (some q) = described pid heap (some p) ∧
        described pid later (some p) = described pid heap (some p) := by
  obtain ⟨hsound, hstands⟩ := stands_of_built h
  have hdescribed := hstands.described hsound
  refine ⟨hstands.errorCode, hdescribed, ?_⟩
  obtain ⟨heap', q, hcopy, hkeep, hsound', hstands'⟩ := hstands.copy hsound
  refine ⟨heap', q, hcopy, fun later hlater => ?_⟩
  obtain ⟨hkeep', hsound''⟩ := later_spec hlater hsound'
  exact ⟨((hstands'.keeps hkeep').described hsound'').trans hdescribed.symm,
    ((hstands.keeps (hkeep.trans hkeep')).described hsound'').trans hdescribed.symm⟩

def innerCall : Call := ⟨ascii "read", ascii "a.cpp", 5, ascii "inner", 11, none⟩
def outerCall : Call := ⟨ascii "run", ascii "b.cpp", 9, ascii "outer", 0, some (ascii "id")⟩

/-- An error that has been described. -/
def innerError : SrsCplxError :=
  { ofCall innerCall 1001 none with
    desc := ascii "code=1001 : inner" ++ endl ++ ascii "thread [7][]: read() [a.cpp:5][errno=11]" }

/-- The described error, one that wraps it, and the copy of the two. -/
def copiedErrors : Heap :=
  [innerError, ofCall outerCall 1001 (some 0), ofCall outerCall 1001 (some 3), innerError]

/-- The copy is described, although what it wraps has kept its description. -/
theorem described_copied :
    errorCode copiedErrors (some 2) = some 1001 ∧
    described 7 copiedErrors (some 2) = some (ascii "code=1001 : outer : inner" ++ endl
      ++ ascii "thread [7][id]: run() [b.cpp:9][errno=0]" ++ endl
      ++ ascii "thread [7][]: read() [a.cpp:5][errno=11]") := by
  have hinner : Built 7 [ofCall innerCall 1001 none] 0 ⟨1001, [innerCall.link]⟩ :=
    .create (.start rfl) innerCall 1001
  have hdescribed : Built 7 [innerError] 0 ⟨1001, [innerCall.link]⟩ :=
    hinner.step (.description (some 0) rfl)
  have houter : Built 7 [innerError, ofCall outerCall 1001 (some 0)] 1
      ⟨1001, [outerCall.link, innerCall.link]⟩ := .wrap hdescribed rfl
  have hcopied : Built 7 copiedErrors 2 ⟨1001, [outerCall.link, innerCall.link]⟩ :=
    .copy houter rfl
  obtain ⟨hcode, htext, -⟩ := description_of_built hcopied
  exact ⟨hcode, htext.trans (by decide)⟩

/-! ## Errors as values -/

/-- The texts of the messages of a value, outermost first. -/
def messageTexts (format : Msg → Bytes) : Kernel.SrsCplxError → List Bytes
  | .mk _ msg none => [format msg]
  | .mk _ msg (some err) => format msg :: messageTexts format err

/-- A value has the code and the messages of a cause. -/
structure HasCause (format : Msg → Bytes) (err : Kernel.SrsCplxError) (c : Cause) : Prop where
  code : err.errorCode = c.code
  messages : messageTexts format err = c.links.map Link.msg

variable {format : Msg → Bytes} {fmt : String} {args : List MsgArg}

/-- **`create` makes the object of a new value.** -/
theorem hasCause_create (h : Later pid [] heap) (ret : Int) (c : Call)
    (hmsg : c.link.msg = format ⟨fmt, args⟩) :
    ∃ cause, Built pid (create heap c ret).1 (create heap c ret).2 cause ∧
      HasCause format (.new ret fmt args) cause :=
  ⟨_, .create h c ret, rfl, by simp [Kernel.SrsCplxError.new, messageTexts, hmsg]⟩

/-- **`wrap` makes the object of the value that wraps.** -/
theorem hasCause_wrap {p : Nat} {cause : Cause} {err : Kernel.SrsCplxError}
    (h : Built pid heap p cause) (hvalue : HasCause format err cause) (c : Call)
    (hmsg : c.link.msg = format ⟨fmt, args⟩) :
    ∃ heap' q cause', wrap heap c (some p) = some (heap', q) ∧ Built pid heap' q cause' ∧
      HasCause format (err.wrap fmt args) cause' := by
  obtain ⟨hsound, hstands⟩ := stands_of_built h
  obtain ⟨heap', q, hwrap, -⟩ := hstands.wrap hsound c
  refine ⟨heap', q, _, hwrap, .wrap h hwrap, hvalue.code, ?_⟩
  rw [Kernel.SrsCplxError.wrap, messageTexts, hvalue.messages, List.map_cons, hmsg]

end Ssms.Kernel.ErrorChain
