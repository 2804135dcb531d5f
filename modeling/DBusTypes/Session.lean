import DBusTypes.Serial

/-!
# Sessions

Everything that can be done with signatures, as data: a session is a sequence of steps over named
slots, which hold signatures, iterators and items, and over one set of signatures. Values are
independent of each other: what was made from a value stays as it is when the value is replaced.

* `Step` — the operations
* `Answer` — what a step gives
* `Session.step`, `Session.run` — a step that fails changes nothing, and later steps still run
-/

namespace DBusTypes

abbrev Slot := String

inductive Value where
  | signature (s : Signature)
  | portions (it : Portions)
  | excerpts (it : Excerpts)
  | portion (p : Portion)
  | excerpt (x : Excerpt)
  deriving Repr

/-- Where a new signature comes from. -/
inductive Origin where
  /-- No types. -/
  | empty
  /-- A text, checked against the limits of the protocol. -/
  | text (text : Bytes)
  /-- A text, checked against limits of its own. -/
  | within (limits : Limits) (text : Bytes)
  deriving Repr

def Origin.signature : Origin → Except BuildError Signature
  | .empty => .ok Signature.empty
  | .text b => Signature.ofBytes b
  | .within limits b => Signature.within limits b

/-- One operation. What it makes is stored in the slot `dest`, if there is one. -/
inductive Step where
  | new (origin : Origin) (dest : Option Slot)
  | level (source : Slot) (level : UInt32) (dest : Option Slot)
  | read (source : Slot)
  | array (source : Slot) (dest : Option Slot)
  | dict (key value : Slot) (dest : Option Slot)
  | struct (fields : List Slot) (dest : Option Slot)
  | portions (source : Slot) (dest : Option Slot)
  | excerpts (source : Slot) (dest : Option Slot)
  /-- Goes through a text without making a signature of it. -/
  | iterate (limits : Limits) (text : Bytes) (dest : Option Slot)
  | next (source : Slot) (dest : Option Slot)
  | rest (source : Slot)
  | clone (source : Slot) (dest : Option Slot)
  | children (source : Slot) (dest : Option Slot)
  | toSignature (source : Slot) (dest : Option Slot)
  | equal (a b : Slot)
  | insert (source : Slot)
  | find (source : Slot)
  | remove (source : Slot)
  /-- Reads a signature from a JSON value. -/
  | deserialize (value : Json) (dest : Option Slot)
  /-- Writes a signature as JSON and reads it back. -/
  | roundTrip (source : Slot) (dest : Option Slot)
  | drop (source : Slot)
  deriving Repr

/-- What a step gives. -/
inductive Answer where
  | signature (s : Signature)
  | item (x : Excerpt)
  | items (xs : List Excerpt)
  | iterator
  /-- There is no next item, or no such element. -/
  | nothing
  | dropped (held : Bool)
  | sameItem (equal : Bool)
  | sameSignature (equal sameHash : Bool)
  | inserted (new : Bool) (size : Nat)
  | removed (present : Bool) (size : Nat)
  | rejected (r : Rejection)
  | failed (e : BuildError)
  | unread (e : ReadError)
  /-- A slot is empty, or holds a value of another kind. -/
  | badSlot

/-- The slots that hold a value, and the set. -/
structure Session where
  slots : List (Slot × Value)
  set : Std.HashSet Signature

namespace Value

def answer : Value → Answer
  | .signature s => .signature s
  | .portions _ | .excerpts _ => .iterator
  | .portion p => .item p.excerpt
  | .excerpt x => .item x

end Value

namespace Session

/-- Nothing is stored. -/
def new : Session := ⟨[], ∅⟩

def get? (s : Session) (slot : Slot) : Option Value := s.slots.lookup slot

/-- Puts a value into a slot, in place of what was there. -/
def put (s : Session) (slot : Slot) (v : Value) : Session :=
  { s with slots := (slot, v) :: s.slots.filter (·.1 != slot) }

def erase (s : Session) (slot : Slot) : Session :=
  { s with slots := s.slots.filter (·.1 != slot) }

def signature? (s : Session) (slot : Slot) : Option Signature :=
  match s.get? slot with
  | some (.signature x) => some x
  | _ => none

/-- Stores a value, if there is a slot for it, and shows it. -/
def store (s : Session) (dest : Option Slot) (v : Value) : Session × Answer :=
  (dest.elim s fun slot => s.put slot v, v.answer)

/-- Stores a new signature, if there is one. -/
def storeNew (s : Session) (dest : Option Slot) :
    Except BuildError Signature → Session × Answer
  | .ok x => s.store dest (.signature x)
  | .error e => (s, .failed e)

/-- Stores the signature that a JSON value was read as, if it was. -/
def storeRead (s : Session) (dest : Option Slot) :
    Except ReadError Signature → Session × Answer
  | .ok x => s.store dest (.signature x)
  | .error e => (s, .unread e)

/-- Does something with the signature in a slot. -/
def withSignature (s : Session) (slot : Slot) (f : Signature → Session × Answer) :
    Session × Answer :=
  match s.signature? slot with
  | some x => f x
  | none => (s, .badSlot)

/-- Stores the item that an iterator gave, if it gave one. -/
def storeNext (s : Session) (dest : Option Slot) : Option Value → Session × Answer
  | some v => s.store dest v
  | none => (s, .nothing)

def step (s : Session) : Step → Session × Answer
  | .new origin dest => s.storeNew dest origin.signature
  | .level source level dest =>
    s.withSignature source fun x => s.store dest (.signature (x.withLevel level))
  | .read source => s.withSignature source fun x => (s, .signature x)
  | .array source dest => s.withSignature source fun x => s.storeNew dest (Signature.array x)
  | .dict key value dest =>
    s.withSignature key fun k => s.withSignature value fun v => s.storeNew dest (Signature.dict k v)
  | .struct fields dest =>
    match fields.mapM s.signature? with
    | some xs => s.storeNew dest (Signature.struct xs)
    | none => (s, .badSlot)
  | .portions source dest => s.withSignature source fun x => s.store dest (.portions x.portions)
  | .excerpts source dest => s.withSignature source fun x => s.store dest (.excerpts x.excerpts)
  | .iterate limits text dest =>
    match Excerpts.ofBytes limits text with
    | .ok it => s.store dest (.excerpts it)
    | .error r => (s, .rejected r)
  | .next source dest =>
    match s.get? source with
    | some (.portions it) =>
      let r := it.next
      (s.put source (.portions r.2)).storeNext dest (r.1.map .portion)
    | some (.excerpts it) =>
      let r := it.next
      (s.put source (.excerpts r.2)).storeNext dest (r.1.map .excerpt)
    | _ => (s, .badSlot)
  | .rest source =>
    match s.get? source with
    | some (.portions it) =>
      let r := it.drain
      (s.put source (.portions r.2), .items (r.1.map (·.excerpt)))
    | some (.excerpts it) =>
      let r := it.drain
      (s.put source (.excerpts r.2), .items r.1)
    | _ => (s, .badSlot)
  | .clone source dest =>
    match s.get? source with
    | some v => s.store dest v
    | none => (s, .badSlot)
  | .children source dest =>
    match s.get? source with
    | some (.portion p) => s.store dest (.excerpts p.children)
    | some (.excerpt x) => s.store dest (.excerpts x.children)
    | _ => (s, .badSlot)
  | .toSignature source dest =>
    match s.get? source with
    | some (.portion p) => s.store dest (.signature p.signature)
    | _ => (s, .badSlot)
  | .equal a b =>
    match s.get? a, s.get? b with
    | some (.signature x), some (.signature y) =>
      (s, .sameSignature (x == y) (hash x == hash y))
    | some (.portion x), some (.portion y) => (s, .sameItem (x == y))
    | some (.excerpt x), some (.excerpt y) => (s, .sameItem (x == y))
    | _, _ => (s, .badSlot)
  | .insert source =>
    s.withSignature source fun x =>
      let set := s.set.insert x
      ({ s with set := set }, .inserted (!s.set.contains x) set.size)
  | .find source =>
    s.withSignature source fun x => (s, (s.set.get? x).elim .nothing .signature)
  | .remove source =>
    s.withSignature source fun x =>
      let set := s.set.erase x
      ({ s with set := set }, .removed (s.set.contains x) set.size)
  | .deserialize value dest => s.storeRead dest (Signature.ofJson value)
  | .roundTrip source dest =>
    s.withSignature source fun x => s.storeRead dest (Signature.ofJson x.toJson)
  | .drop source => (s.erase source, .dropped (s.get? source).isSome)

def run (s : Session) : List Step → Session × List Answer
  | [] => (s, [])
  | x :: xs =>
    let r := s.step x
    let rest := r.1.run xs
    (rest.1, r.2 :: rest.2)

end Session

end DBusTypes
