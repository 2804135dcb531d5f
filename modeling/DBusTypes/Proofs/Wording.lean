import Mathlib.Tactic.SplitIfs
import DBusTypes.Proofs.Forests

/-!
# What a message says

A message tells all that there is to an error: which one it is, and every number and byte in it. It
can be read back, and it can be read back from its end, whatever text stands in front of it.

1. A message ends in a number, in a byte between quotes, or in neither (`Wording.ending`). Numbers
   and bytes are read back from their ends (`Wording.ending_number`, `Wording.ending_byte`).
2. What an ending leaves of a message is a phrase, and no phrase is the end of another one that goes
   with the same ending, so the phrase tells the cause (`Wording.readsBack_cause`).
3. A message with others in it is read back part by part, from the last one to the first
   (`Wording.readsBack_rejection`, `Wording.readsBack_buildError`).

The main statement is `messages_lose_nothing`.
-/

namespace DBusTypes

namespace Wording

/-! ## Reading from the end -/

/-- The characters of a text, the last one first. -/
def back (s : String) : List Char := s.toList.reverse

theorem back_append (s t : String) : back (s ++ t) = back t ++ back s := by
  rw [back, String.toList_append, List.reverse_append]
  rfl

theorem back_ofList (cs : List Char) : back (String.ofList cs) = cs.reverse := by
  rw [back, String.toList_ofList]

theorem back_inj {s t : String} : back s = back t ↔ s = t :=
  List.reverse_inj.trans String.toList_inj

/-- A reader of the end of a text: what it says, and the characters in front of that. -/
abbrev Reader (α : Type) := List Char → Option (α × List Char)

/-- Whether a reader reads what is written, whatever stands in front of it. -/
def ReadsBack {α : Type} (read : Reader α) (write : α → String) : Prop :=
  ∀ a cs, read (back (write a) ++ cs) = some (a, cs)

section

variable {α : Type} {read : Reader α} {write : α → String} {a b : α} {s t : String}

/-- **What can be read back tells where it starts, and what was written.** -/
theorem ReadsBack.append_inj (h : ReadsBack read write) :
    s ++ write a = t ++ write b ↔ s = t ∧ a = b := by
  constructor
  · intro heq
    have hread := congrArg (fun s => read (back s)) heq
    simp only [back_append, h a, h b, Option.some.injEq, Prod.mk.injEq] at hread
    exact ⟨back_inj.mp hread.2, hread.1⟩
  · rintro ⟨rfl, rfl⟩
    rfl

theorem ReadsBack.inj (h : ReadsBack read write) : write a = write b ↔ a = b := by
  have hcut := h.append_inj (s := "") (t := "") (a := a) (b := b)
  simpa using hcut

end

/-! ## Phrases -/

/-- What stands in front of a phrase, if the text ends in it. -/
def strip (phrase : String) (cs : List Char) : Option (List Char) :=
  if back phrase <+: cs then some (cs.drop (back phrase).length) else none

theorem strip_back (phrase : String) (cs : List Char) : strip phrase (back phrase ++ cs) = some cs := by
  rw [strip, if_pos (List.prefix_append _ _), List.drop_left]

/-- What goes with the first of several phrases that the text ends in. -/
def choose {α : Type} (phrases : List (String × α)) : Reader α := fun cs =>
  phrases.findSome? fun p => (strip p.1 cs).map fun front => (p.2, front)

/-- Neither of two phrases is the end of the other. -/
def Apart (p q : String) : Prop := ¬ back p <+: back q ∧ ¬ back q <+: back p

instance (p q : String) : Decidable (Apart p q) := inferInstanceAs (Decidable (_ ∧ _))

theorem strip_of_apart {p q : String} (h : Apart p q) (cs : List Char) :
    strip p (back q ++ cs) = none := by
  refine if_neg fun hp => ?_
  rcases List.prefix_or_prefix_of_prefix hp (List.prefix_append (back q) cs) with hpq | hqp
  · exact h.1 hpq
  · exact h.2 hqp

theorem choose_of_apart {α : Type} {phrases : List (String × α)} {q : String}
    (h : ∀ p ∈ phrases, Apart p.1 q) (cs : List Char) : choose phrases (back q ++ cs) = none := by
  rw [choose, List.findSome?_eq_none_iff]
  intro p hp
  rw [strip_of_apart (h p hp)]
  rfl

/-- Of phrases that are apart, the one that the text ends in is found. -/
theorem choose_back {α : Type} {phrases : List (String × α)} {phrase : String} {a : α}
    (h : phrases.Pairwise fun p q => Apart p.1 q.1) (hmem : (phrase, a) ∈ phrases)
    (cs : List Char) : choose phrases (back phrase ++ cs) = some (a, cs) := by
  induction phrases with
  | nil => exact absurd hmem List.not_mem_nil
  | cons p phrases ih =>
    obtain ⟨hp, hapart⟩ := List.pairwise_cons.mp h
    rw [choose, List.findSome?_cons]
    rcases List.mem_cons.mp hmem with rfl | hmem
    · rw [strip_back]
      rfl
    · rw [strip_of_apart (hp _ hmem)]
      exact ih hapart hmem

/-! ## Numbers and bytes -/

/-- A number in decimal digits. -/
def number : Reader Nat := fun cs =>
  if cs.takeWhile Char.isDigit = [] then none
  else some (Nat.ofDigitChars 10 (cs.takeWhile Char.isDigit).reverse 0, cs.dropWhile Char.isDigit)

theorem back_toString (n : Nat) : back (toString n) = (Nat.toDigits 10 n).reverse := by
  rw [Nat.toString_eq_ofList_toDigits, back_ofList]

/-- **A number is read back**, if there is a blank in front of it. -/
theorem number_back (n : Nat) (cs : List Char) (h : cs.head? = some ' ') :
    number (back (toString n) ++ cs) = some (n, cs) := by
  obtain ⟨front, rfl⟩ : ∃ front, cs = ' ' :: front := by
    cases cs with
    | nil => exact absurd h (by simp)
    | cons c front => exact ⟨front, by rw [Option.some.inj h]⟩
  have hdigits : ∀ c ∈ (Nat.toDigits 10 n).reverse, c.isDigit = true := fun c hc =>
    Json.isDigit_of_mem_toDigits (List.mem_reverse.mp hc)
  have htake : (' ' :: front).takeWhile Char.isDigit = [] := rfl
  have hdrop : (' ' :: front).dropWhile Char.isDigit = ' ' :: front := rfl
  rw [number, back_toString, List.takeWhile_append_of_pos hdigits, htake, List.append_nil,
    List.dropWhile_append_of_pos hdigits, hdrop, List.reverse_reverse, if_neg (by simp)]
  exact congrArg (fun n => some (n, ' ' :: front)) Nat.ofDigitChars_ten_toDigits

/-- The value of a hexadecimal digit. -/
def hexValue (c : Char) : Nat := if c.isDigit then c.toNat - 0x30 else c.toNat - 0x57

/-- The byte that a backslash and one more character show. -/
def unescape (c : Char) : UInt8 :=
  if c = 't' then 0x09 else if c = 'r' then 0x0d else if c = 'n' then 0x0a else c.toUInt8

/-- A byte as a message shows it, between backquotes. -/
def quoted (b : UInt8) : String := "`" ++ String.ofList (escapeByte b) ++ "`"

/-- A byte between backquotes. One character alone stands for itself, and two or four for an escape. -/
def byte : Reader UInt8 := fun cs => do
  match ← strip "`" cs with
  | c :: d :: cs =>
    if d = '\x60' then some (c.toUInt8, cs)
    else if d = '\\' then (strip "`" cs).map fun front => (unescape c, front)
    else (strip "`\\x" cs).map fun front => (UInt8.ofNat (16 * hexValue d + hexValue c), front)
  | _ => none

/-- A hexadecimal digit has its value, and is neither a backquote nor a backslash. -/
theorem hexDigit_spec {n : Nat} (h : n < 16) :
    hexValue (hexDigit n) = n ∧ hexDigit n ≠ '\x60' ∧ hexDigit n ≠ '\\' := by
  have key : ∀ n < 16, hexValue (hexDigit n) = n ∧ hexDigit n ≠ '\x60' ∧ hexDigit n ≠ '\\' := by
    decide
  exact key n h

theorem byte_shown (c : Char) (cs : List Char) :
    byte (back "`" ++ (c :: (back "`" ++ cs))) = some (c.toUInt8, cs) := rfl

theorem byte_escaped (c : Char) (cs : List Char) :
    byte (back "`" ++ (c :: '\\' :: (back "`" ++ cs))) = some (unescape c, cs) := rfl

theorem byte_hex {h l : Char} (hquote : h ≠ '\x60') (hslash : h ≠ '\\') (cs : List Char) :
    byte (back "`" ++ (l :: h :: (back "`\\x" ++ cs))) =
      some (UInt8.ofNat (16 * hexValue h + hexValue l), cs) := by
  rw [byte, strip_back]
  show (if h = '\x60' then _ else if h = '\\' then _ else _) = _
  rw [if_neg hquote, if_neg hslash, strip_back]
  rfl

/-- **A byte is read back.** -/
theorem readsBack_byte : ReadsBack byte quoted := by
  intro b cs
  rw [quoted, back_append, back_append, back_ofList (escapeByte b), List.append_assoc,
    List.append_assoc, escapeByte]
  split_ifs with htab hreturn hnewline hquote hquotes hslash hplain
  · rw [htab]; exact byte_escaped 't' cs
  · rw [hreturn]; exact byte_escaped 'r' cs
  · rw [hnewline]; exact byte_escaped 'n' cs
  · rw [hquote]; exact byte_escaped '\'' cs
  · rw [hquotes]; exact byte_escaped '"' cs
  · rw [hslash]; exact byte_escaped '\\' cs
  · have hback : (Char.ofUInt8 b).toUInt8 = b := UInt8.toUInt8_toUInt32 b
    exact (byte_shown _ cs).trans (by rw [hback])
  · obtain ⟨hhigh, hnotQuote, hnotSlash⟩ := hexDigit_spec (n := b.toNat / 16) (by
      have := b.toNat_lt
      omega)
    obtain ⟨hlow, -⟩ := hexDigit_spec (n := b.toNat % 16) (Nat.mod_lt _ (by decide))
    refine (byte_hex hnotQuote hnotSlash cs).trans ?_
    rw [hhigh, hlow, Nat.div_add_mod, UInt8.ofNat_toNat]

/-! ## Causes -/

/-- What a message may end in. -/
inductive Ending where
  | number (n : Nat)
  | byte (b : UInt8)
  | words
  deriving DecidableEq, Repr

def ending (cs : List Char) : Ending × List Char :=
  match number cs, byte cs with
  | some (n, front), _ => (.number n, front)
  | none, some (b, front) => (.byte b, front)
  | none, none => (.words, cs)

theorem ending_number (n : Nat) (cs : List Char) (h : cs.head? = some ' ') :
    ending (back (toString n) ++ cs) = (.number n, cs) := by
  rw [ending, number_back n cs h]

theorem ending_byte (b : UInt8) (cs : List Char) :
    ending (back (quoted b) ++ cs) = (.byte b, cs) := by
  have hnumber : number (back (quoted b) ++ cs) = none := by
    rw [quoted, back_append, List.append_assoc]
    rfl
  rw [ending, hnumber, readsBack_byte b cs]

/-- What stands in front of a number. -/
def beforeNumber : List (String × (Nat → Cause)) :=
  [("dict-entry must hold exactly two types, found ", .entryArity),
    ("array/struct nesting exceeds the limit of ", fun n => .tooDeep .arrayOrStruct (.ofNat n)),
    ("dict-entry nesting exceeds the limit of ", fun n => .tooDeep .dictEntry (.ofNat n))]

/-- What stands in front of a byte. -/
def beforeByte : List (String × (UInt8 → Cause)) :=
  [("unknown type code ", .unknownCode), ("unbalanced close bracket ", .unbalanced)]

/-- What says all by itself. -/
def plain : List (String × Cause) :=
  [("struct has no fields", .emptyStruct),
    ("dict-entry is only allowed as the element type of an array", .entryOutsideArray),
    ("dict-entry key must be a basic type", .keyNotBasic),
    ("container opened here is never closed", .unterminated),
    ("array marker has no element type", .danglingArray)]

/-- A cause, by what the message ends in and the phrase in front of that. -/
def cause : Reader Cause := fun cs =>
  match ending cs with
  | (.number n, cs) => (choose beforeNumber cs).map fun p => (p.1 n, p.2)
  | (.byte b, cs) => (choose beforeByte cs).map fun p => (p.1 b, p.2)
  | (.words, cs) => choose plain cs

/-- No phrase is the end of another one that goes with the same ending. -/
theorem pairwise_phrases : beforeNumber.Pairwise (fun p q => Apart p.1 q.1) ∧
    beforeByte.Pairwise (fun p q => Apart p.1 q.1) ∧ plain.Pairwise (fun p q => Apart p.1 q.1) := by
  decide +kernel

/-- There is a blank in front of each number. -/
theorem head?_beforeNumber : ∀ p ∈ beforeNumber, (back p.1).head? = some ' ' := by
  decide +kernel

theorem head?_back_append {phrase : String} (h : (back phrase).head? = some ' ') (cs : List Char) :
    (back phrase ++ cs).head? = some ' ' := by
  rw [List.head?_append, h]
  rfl

theorem cause_number {phrase : String} {make : Nat → Cause} (h : (phrase, make) ∈ beforeNumber)
    (n : Nat) (cs : List Char) : cause (back (phrase ++ toString n) ++ cs) = some (make n, cs) := by
  have hblank := head?_back_append (head?_beforeNumber _ h) cs
  rw [back_append, List.append_assoc, cause, ending_number n _ hblank]
  show (choose beforeNumber _).map _ = _
  rw [choose_back pairwise_phrases.1 h]
  rfl

/-- A number that other words stand in front of is no end of a cause. -/
theorem cause_of_number (phrase : String) (hblank : (back phrase).head? = some ' ')
    (h : ∀ p ∈ beforeNumber, Apart p.1 phrase) (n : Nat) (cs : List Char) :
    cause (back (toString n) ++ (back phrase ++ cs)) = none := by
  rw [cause, ending_number n _ (head?_back_append hblank cs)]
  show (choose beforeNumber _).map _ = _
  rw [choose_of_apart h]
  rfl

theorem cause_byte {phrase : String} {make : UInt8 → Cause} (h : (phrase, make) ∈ beforeByte)
    (b : UInt8) (cs : List Char) :
    cause (back (phrase ++ quoted b) ++ cs) = some (make b, cs) := by
  rw [back_append, List.append_assoc, cause, ending_byte]
  show (choose beforeByte _).map _ = _
  rw [choose_back pairwise_phrases.2.1 h]
  rfl

theorem cause_plain {phrase : String} {c : Cause} (h : (phrase, c) ∈ plain) (cs : List Char) :
    cause (back phrase ++ cs) = some (c, cs) := by
  have hending : ending (back phrase ++ cs) = (.words, back phrase ++ cs) := by
    simp only [plain, List.mem_cons, List.not_mem_nil, Prod.mk.injEq, or_false] at h
    rcases h with ⟨rfl, -⟩ | ⟨rfl, -⟩ | ⟨rfl, -⟩ | ⟨rfl, -⟩ | ⟨rfl, -⟩ <;> rfl
  rw [cause, hending]
  exact choose_back pairwise_phrases.2.2 h cs

/-- **A cause is read back.** -/
theorem readsBack_cause : ReadsBack cause Cause.message := by
  intro c cs
  cases c with
  | unknownCode b =>
    have hmessage : (Cause.unknownCode b).message = "unknown type code " ++ quoted b := by
      rw [quoted, ← String.append_assoc, ← String.append_assoc]
      rfl
    rw [hmessage]
    exact cause_byte (.head _) b cs
  | unbalanced b =>
    have hmessage : (Cause.unbalanced b).message = "unbalanced close bracket " ++ quoted b := by
      rw [quoted, ← String.append_assoc, ← String.append_assoc]
      rfl
    rw [hmessage]
    exact cause_byte (.tail _ (.head _)) b cs
  | entryArity n => exact cause_number (.head _) n cs
  | tooDeep nesting limit =>
    cases nesting with
    | arrayOrStruct =>
      refine (cause_number (.tail _ (.head _)) limit.toNat cs).trans ?_
      rw [UInt32.ofNat_toNat]
    | dictEntry =>
      refine (cause_number (.tail _ (.tail _ (.head _))) limit.toNat cs).trans ?_
      rw [UInt32.ofNat_toNat]
  | emptyStruct => exact cause_plain (.head _) cs
  | entryOutsideArray => exact cause_plain (.tail _ (.head _)) cs
  | keyNotBasic => exact cause_plain (.tail _ (.tail _ (.head _))) cs
  | unterminated => exact cause_plain (.tail _ (.tail _ (.tail _ (.head _)))) cs
  | danglingArray => exact cause_plain (.tail _ (.tail _ (.tail _ (.tail _ (.head _))))) cs

/-! ## Faults, rejections and other errors -/

def fault : Reader Fault := fun cs => do
  let (c, cs) ← cause cs
  let (n, cs) ← number (← strip ": " cs)
  let cs ← strip "offset " cs
  return (⟨n, c⟩, cs)

/-- **A fault is read back.** -/
theorem readsBack_fault : ReadsBack fault Fault.message := by
  intro f cs
  have hmessage : f.message = "offset " ++ toString f.offset ++ ": " ++ f.cause.message := rfl
  have hnumber := number_back f.offset (back "offset " ++ cs) rfl
  simp only [hmessage, back_append, List.append_assoc]
  rw [fault, readsBack_cause]
  simp only [Option.bind_eq_bind, Option.bind_some, strip_back, hnumber]
  rfl

def tooLong : Reader Rejection := fun cs => do
  let (limit, cs) ← number cs
  let (length, cs) ← number (← strip " bytes long, the limit is " cs)
  let cs ← strip "signature is " cs
  return (.tooLong length limit, cs)

def rejection : Reader Rejection := fun cs =>
  ((fault cs).map fun p => (.fault p.1, p.2)).or (tooLong cs)

/-- **What a byte string is refused for is read back.** -/
theorem readsBack_rejection : ReadsBack rejection Rejection.message := by
  intro r cs
  cases r with
  | fault f =>
    have hmessage : (Rejection.fault f).message = f.message := rfl
    rw [hmessage, rejection, readsBack_fault]
    rfl
  | tooLong length limit =>
    have hmessage : (Rejection.tooLong length limit).message =
        "signature is " ++ toString length ++ " bytes long, the limit is " ++ toString limit := rfl
    have hapart : ∀ p ∈ beforeNumber, Apart p.1 " bytes long, the limit is " := by decide +kernel
    have hcause := cause_of_number " bytes long, the limit is " rfl hapart limit
      (back (toString length) ++ (back "signature is " ++ cs))
    have hlimit := number_back limit (back " bytes long, the limit is " ++
      (back (toString length) ++ (back "signature is " ++ cs))) rfl
    have hlength := number_back length (back "signature is " ++ cs) rfl
    simp only [hmessage, back_append, List.append_assoc]
    rw [rejection, fault, hcause, tooLong, hlimit]
    simp only [Option.bind_eq_bind, Option.bind_some, strip_back, hlength]
    rfl

/-- A number that other words stand in front of is not the end of a rejection either. -/
theorem rejection_of_number (phrase : String) (hblank : (back phrase).head? = some ' ')
    (hcause : ∀ p ∈ beforeNumber, Apart p.1 phrase) (hlimit : Apart " bytes long, the limit is " phrase)
    (n : Nat) (cs : List Char) : rejection (back (toString n) ++ (back phrase ++ cs)) = none := by
  rw [rejection, fault, cause_of_number phrase hblank hcause, tooLong,
    number_back n _ (head?_back_append hblank cs)]
  simp only [Option.bind_eq_bind, Option.bind_some, strip_of_apart hlimit]
  rfl

def rejected : Reader BuildError := fun cs => do
  let (r, cs) ← rejection cs
  let cs ← strip "corrupt type signature: " cs
  return (.rejected r, cs)

def notSingle : Reader BuildError := fun cs => do
  let (n, cs) ← number cs
  let cs ← strip "expected a single complete type, found " cs
  return (.notSingle n, cs)

def outOfMemory : Reader BuildError := fun cs => do
  let (n, cs) ← number (← strip " bytes for a signature" cs)
  let cs ← strip "failed to allocate " cs
  return (.outOfMemory n, cs)

def buildError : Reader BuildError := fun cs => (rejected cs).or ((notSingle cs).or (outOfMemory cs))

/-- **An error is read back.** -/
theorem readsBack_buildError : ReadsBack buildError BuildError.message := by
  intro e cs
  cases e with
  | rejected r =>
    have hmessage : (BuildError.rejected r).message = "corrupt type signature: " ++ r.message := rfl
    simp only [hmessage, back_append, List.append_assoc]
    rw [buildError, rejected, readsBack_rejection]
    simp only [Option.bind_eq_bind, Option.bind_some, strip_back]
    rfl
  | notSingle n =>
    have hmessage : (BuildError.notSingle n).message =
        "expected a single complete type, found " ++ toString n := rfl
    have hapart : ∀ p ∈ beforeNumber, Apart p.1 "expected a single complete type, found " := by
      decide +kernel
    have hrejection := rejection_of_number "expected a single complete type, found " rfl hapart
      (by decide +kernel) n cs
    have hnumber := number_back n (back "expected a single complete type, found " ++ cs) rfl
    simp only [hmessage, back_append, List.append_assoc]
    rw [buildError, rejected, hrejection, notSingle, hnumber]
    simp only [Option.bind_eq_bind, Option.bind_some, strip_back]
    rfl
  | outOfMemory n =>
    have hmessage : (BuildError.outOfMemory n).message =
        "failed to allocate " ++ toString n ++ " bytes for a signature" := rfl
    have hplain : ∀ p ∈ plain, Apart p.1 " bytes for a signature" := by decide +kernel
    have hcause : ∀ cs, cause (back " bytes for a signature" ++ cs) = none := choose_of_apart hplain
    have hnumber := number_back n (back "failed to allocate " ++ cs) rfl
    simp only [hmessage, back_append, List.append_assoc]
    rw [buildError, rejected, rejection, fault, hcause, outOfMemory, strip_back]
    simp only [Option.bind_eq_bind, Option.bind_some, hnumber, strip_back]
    rfl

end Wording

/-! ## Records in words -/

namespace Report

variable {o o' : Options} {limits : Limits} {text text' : String} {tree tree' : Bool}
  {s : Signature} {e e' : BuildError}

/-- **The record of a text that is refused tells the text and the error.** -/
theorem textRecord_error_inj :
    textRecord tree text (.error e) = textRecord tree' text' (.error e') ↔ text = text' ∧ e = e' := by
  have hform : ∀ (tree : Bool) (text : String) (e : BuildError), textRecord tree text (.error e) =
      utf8 (text ++ ": error: " ++ e.message) ++ [0x0a] := by
    intro tree text e
    simp only [textRecord, utf8_append, List.append_assoc]
    rfl
  rw [hform, hform, List.append_left_inj, utf8_inj, Wording.readsBack_buildError.append_inj,
    String.append_left_inj]

/-- Such a record has an `r` in it, if only in front of the message. -/
theorem mem_textRecord_error (tree : Bool) (text : String) (e : BuildError) :
    0x72 ∈ textRecord tree text (.error e) := by
  have hmark : (0x72 : UInt8) ∈ utf8 ": error: " := by decide
  simp [textRecord, utf8_append, hmark]

/-- The record of a signature has none: no type has one, and neither do the words. -/
theorem not_mem_textRecord_ok (h : Signature.within limits (utf8 text) = .ok s) :
    0x72 ∉ textRecord tree text (.ok s) := by
  obtain ⟨hforeign, -, lines, -, -, -, hlines, hplain⟩ := exists_shows_of_within tree h
  have htext : 0x72 ∉ utf8 text := hforeign 0x72 (by decide)
  have htypes : 0x72 ∉ typeLines tree s := by
    rw [hlines]
    intro hmem
    obtain ⟨line, hline, hmem⟩ := List.mem_flatMap.mp hmem
    rcases List.mem_append.mp hmem with hmem | hmem
    · exact hplain line hline 0x72 (by decide) (by decide) hmem
    · exact absurd hmem (by decide)
  rw [textRecord_ok, List.mem_append, List.mem_cons, not_or, not_or]
  exact ⟨not_mem_header htext rfl (by decide) _, by decide, htypes⟩

/-- The record of a text that is refused is the record of no other text and of no other verdict. -/
theorem eq_of_record_eq (hformat : o.format = .text) (hformat' : o'.format = .text)
    (herror : verdict o text = .error e) (hrecord : record o text = record o' text') :
    text = text' ∧ verdict o' text' = .error e := by
  rw [record, record, written, written, hformat, hformat', herror] at hrecord
  cases hverdict : verdict o' text' with
  | ok s =>
    rw [hverdict] at hrecord
    have hmem := mem_textRecord_error o.tree text e
    rw [show textRecord o.tree text (.error e) = _ from hrecord] at hmem
    exact absurd hmem (not_mem_textRecord_ok hverdict)
  | error e' =>
    rw [hverdict] at hrecord
    obtain ⟨htext, rfl⟩ := textRecord_error_inj.mp hrecord
    exact ⟨htext, rfl⟩

end Report

/-- **Messages lose nothing.** What a byte string is refused for is told by its message, and so is
every other error. A record in words shows no more of an error than its message, and still it tells the
text and the error: another text, another error or a signature has another record. -/
theorem messages_lose_nothing :
    (∀ r r' : Rejection, r.message = r'.message ↔ r = r') ∧
    (∀ e e' : BuildError, e.message = e'.message ↔ e = e') ∧
    (∀ (tree tree' : Bool) (text text' : String) (e e' : BuildError),
      Report.textRecord tree text (.error e) = Report.textRecord tree' text' (.error e') ↔
        text = text' ∧ e = e') ∧
    ∀ (o o' : Options) (text text' : String) (e : BuildError), o.format = .text →
      o'.format = .text → Report.verdict o text = .error e →
      Report.record o text = Report.record o' text' →
      text = text' ∧ Report.verdict o' text' = .error e := by
  refine ⟨?_, ?_, ?_, ?_⟩
  · intro r r'
    exact Wording.readsBack_rejection.inj
  · intro e e'
    exact Wording.readsBack_buildError.inj
  · intro tree tree' text text' e e'
    exact Report.textRecord_error_inj
  · intro o o' text text' e hformat hformat' herror hrecord
    exact Report.eq_of_record_eq hformat hformat' herror hrecord

/-- A backquote is told from the quotes around it, and its record is that of no other verdict, whether
trees are asked for or not. -/
theorem messages_lose_nothing_backquote :
    let o : Options := ⟨[], none, .text, none, false, false, false, 1, 0⟩
    let e : BuildError := .rejected (.fault ⟨0, .unknownCode 0x60⟩)
    e.message = "corrupt type signature: offset 0: unknown type code ```" ∧
      Report.verdict o "`" = .error e ∧
      Report.record o "`" = Report.record { o with tree := true } "`" ∧
      Report.verdict { o with tree := true } "`" = .error e := by
  intro o e
  have hverdict : Report.verdict o "`" = .error e := by
    rw [Report.verdict, Signature.within, check, checkFrom_eq_feedAll]
    rfl
  have hrecord : Report.record o "`" = Report.record { o with tree := true } "`" := by
    show Report.textRecord false "`" (Report.verdict o "`") =
      Report.textRecord true "`" (Report.verdict o "`")
    rw [hverdict]
    rfl
  obtain ⟨-, -, -, htell⟩ := messages_lose_nothing
  exact ⟨by decide, hverdict, hrecord, (htell o _ "`" "`" e rfl rfl hverdict hrecord).2⟩

end DBusTypes
