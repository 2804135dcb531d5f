import DBusTypes.Proofs.Descent
import DBusTypes.Proofs.Documents
import DBusTypes.Proofs.Openings
import DBusTypes.Proofs.Traversals

/-!
# A record in words and in JSON

Both forms of a record say the same. The types of a signature are a list of lines in the one, where
only the indentation tells what is in what, and a forest of objects in the other. Going through the
forest, each object before those in it, gives the lines.

* `Foreign` — a byte that no type has
* `Json.preorder` — each object of a tree before those in it, with its level
* `Report.IsNode` — an object that is put together from those in it
* `Report.map_preorder` — **going through a tree of objects comes to the types of the tree**
* `Report.Agree`, `formats_agree` — **the two forms of a record say the same**
-/

namespace DBusTypes

/-! ## Bytes that no type has -/

/-- Whether a byte is neither a code nor a closing bracket. -/
def Foreign (b : UInt8) : Prop := Code.ofByte? b = none ∧ b ≠ structEnd ∧ b ≠ entryEnd

instance (b : UInt8) : Decidable (Foreign b) := inferInstanceAs (Decidable (_ ∧ _ ∧ _))

namespace Foreign

variable {b : UInt8}

theorem ne_byte (h : Foreign b) (c : Code) : b ≠ c.byte := by
  rintro rfl
  exact absurd (c.ofByte?_byte.symm.trans h.1) (by simp)

theorem not_mem_closing (h : Foreign b) (c : Code) : b ∉ c.closing := by
  cases c with
  | struct => simpa [Code.closing] using h.2.1
  | dictEntry => simpa [Code.closing] using h.2.2
  | basic _ | variant | array => exact List.not_mem_nil

/-- Such a byte is not in the text of an element. -/
theorem not_mem_render (h : Foreign b) (e : Element) : b ∉ e.render := by
  induction e using Element.induction_parts with
  | _ e ih =>
    have hparts : b ∉ Element.renderAll e.parts := by
      intro hmem
      obtain ⟨p, hp, hmem⟩ := List.mem_flatMap.mp hmem
      exact ih p hp hmem
    rw [Element.render_eq_parts, List.mem_cons, List.mem_append, not_or, not_or]
    exact ⟨h.ne_byte e.code, hparts, h.not_mem_closing e.code⟩

theorem not_mem_excerpt (h : Foreign b) {x : Excerpt} (hx : x.IsElement) : b ∉ x.text := by
  obtain ⟨e, -, ht, -⟩ := hx
  rw [ht]
  exact h.not_mem_render e

end Foreign

/-! ## Trees of objects -/

namespace Json

variable {j x : Json} {key : String}

/-- The bytes of the string under a key. -/
def bytesOf (key : String) (j : Json) : Bytes :=
  match j.get? key with
  | some (.string s) => s
  | _ => []

/-- The items of the array under a key. -/
def itemsOf (key : String) (j : Json) : List Json :=
  match j.get? key with
  | some (.array items) => items
  | _ => []

theorem sizeOf_lt_of_get? (h : j.get? key = some x) : sizeOf x < sizeOf j := by
  cases j with
  | object ms =>
    obtain ⟨m, hm, rfl⟩ := Option.map_eq_some_iff.mp h
    have hms := List.sizeOf_lt_of_mem (List.mem_of_find?_eq_some hm)
    obtain ⟨k, x⟩ := m
    simp only [Prod.mk.sizeOf_spec] at hms
    simp only [object.sizeOf_spec]
    omega
  | null | bool | number | string | array => exact absurd h (by simp [get?])

theorem sizeOf_lt_of_mem_itemsOf (h : x ∈ j.itemsOf key) : sizeOf x < sizeOf j := by
  unfold itemsOf at h
  split at h
  · next items hget =>
    have hitems := List.sizeOf_lt_of_mem h
    have hj := sizeOf_lt_of_get? hget
    simp only [array.sizeOf_spec] at hj
    omega
  · exact absurd h List.not_mem_nil

/-- Each object of a tree before its children, with its level; the root has level `level`. -/
def preorder (level : Nat) (j : Json) : List (Nat × Json) :=
  (level, j) :: (j.itemsOf "children").attach.flatMap fun c => c.1.preorder (level + 1)
termination_by sizeOf j
decreasing_by exact sizeOf_lt_of_mem_itemsOf c.2

theorem preorder_eq (level : Nat) (j : Json) :
    j.preorder level = (level, j) :: (j.itemsOf "children").flatMap (preorder (level + 1)) := by
  rw [preorder]
  simp

end Json

namespace Report

open Json

/-! ## The forest of a signature -/

/-- Whether an object is a type that is put together from those in it: behind its code there are its
children, and then the bracket of its kind. -/
def IsNode (j : Json) : Prop :=
  ∃ (code : Code) (children : List Json), j.get? "code" = some (.string [code.byte]) ∧
    j.get? "alignment" = some (.nat code.alignment) ∧
    j.get? "children" = some (.array children) ∧
    j.get? "type" =
      some (.string (code.byte :: (children.flatMap (bytesOf "type") ++ code.closing)))

theorem get?_treeJson (x : Excerpt) (ts : List TypeTree) :
    (treeJson (.node x ts)).get? "type" = some (.string x.text) ∧
      (treeJson (.node x ts)).get? "code" = some (.string [x.code.byte]) ∧
      (treeJson (.node x ts)).get? "alignment" = some (.nat x.code.alignment) ∧
      (treeJson (.node x ts)).get? "children" = some (.array (ts.map treeJson)) := by
  have hcode : utf8 (String.singleton x.code.char) = [x.code.byte] := by
    cases x.code with
    | basic k => cases k <;> rfl
    | variant | array | struct | dictEntry => rfl
  rw [treeJson, get?_record, get?_record, get?_record, get?_record]
  refine ⟨rfl, ?_, rfl, rfl⟩
  rw [← hcode]
  rfl

theorem bytesOf_treeJson (t : TypeTree) : bytesOf "type" (treeJson t) = t.root.text := by
  cases t with
  | node x ts =>
    rw [bytesOf, (get?_treeJson x ts).1]
    rfl

theorem bytesOf_tree (x : Excerpt) : bytesOf "type" (treeJson x.tree) = x.text := by
  rw [bytesOf_treeJson, x.tree_eq]
  rfl

theorem itemsOf_treeJson (t : TypeTree) :
    (treeJson t).itemsOf "children" = t.children.map treeJson := by
  cases t with
  | node x ts =>
    rw [itemsOf, (get?_treeJson x ts).2.2.2]
    rfl

mutual

/-- Going through the objects of a tree comes to the types of that tree, in the same order. -/
theorem map_preorder (level : Nat) (t : TypeTree) :
    ((treeJson t).preorder level).map (fun r => (r.1, bytesOf "type" r.2)) =
      (t.preorder level).map fun r => (r.1, r.2.text) := by
  cases t with
  | node x ts =>
    have hts := map_preorderAll (level + 1) ts
    rw [preorder_eq, itemsOf_treeJson, TypeTree.preorder, List.map_cons, List.map_cons,
      bytesOf_treeJson, ← hts]
    rfl

theorem map_preorderAll (level : Nat) (ts : List TypeTree) :
    ((ts.map treeJson).flatMap (Json.preorder level)).map (fun r => (r.1, bytesOf "type" r.2)) =
      (TypeTree.preorderAll level ts).map fun r => (r.1, r.2.text) := by
  cases ts with
  | nil => rfl
  | cons t ts =>
    rw [List.map_cons, List.flatMap_cons, List.map_append, TypeTree.preorderAll, List.map_append,
      map_preorder level t, map_preorderAll level ts]

end

/-- The object of an element is put together from those in it. -/
theorem isNode_treeJson {x : Excerpt} (h : x.IsElement) : IsNode (treeJson x.tree) := by
  rw [Excerpt.tree_eq]
  obtain ⟨htype, hcode, halignment, hchildren⟩ :=
    get?_treeJson x (x.children.toList.map Excerpt.tree)
  refine ⟨x.code, _, hcode, halignment, hchildren, ?_⟩
  have htexts : ((x.children.toList.map Excerpt.tree).map treeJson).flatMap (bytesOf "type") =
      x.children.toList.flatMap (·.text) := by
    rw [List.flatMap_map, List.flatMap_map]
    exact List.flatMap_congr fun y _ => bytesOf_tree y
  rw [htype, htexts, ← h.assembled.text]

/-- The objects in the tree of an element are those of elements. -/
theorem exists_of_mem_preorder {x : Excerpt} (h : x.IsElement) {level : Nat} {r : Nat × Json}
    (hr : r ∈ (treeJson x.tree).preorder level) :
    ∃ y : Excerpt, y.IsElement ∧ r.2 = treeJson y.tree := by
  -- The trees go down as far as the excerpts do, of which each child is shorter.
  rw [preorder_eq, itemsOf_treeJson, x.tree_eq] at hr
  rcases List.mem_cons.mp hr with rfl | hr
  · exact ⟨x, h, congrArg treeJson x.tree_eq.symm⟩
  · obtain ⟨j, hj, hr⟩ := List.mem_flatMap.mp hr
    obtain ⟨t, ht, rfl⟩ := List.mem_map.mp hj
    obtain ⟨y, hy, rfl⟩ := List.mem_map.mp ht
    exact exists_of_mem_preorder (h.child hy) hr
termination_by x.text.length
decreasing_by exact Excerpt.length_lt_of_mem_children hy

/-! ## Both forms -/

/-- A line that is indented by two spaces a level. -/
def indented (level : Nat) (line : Bytes) : Bytes := List.replicate (2 * level) 0x20 ++ line

theorem not_mem_indented {b : UInt8} {level : Nat} {line : Bytes} (hb : b ≠ 0x20) (h : b ∉ line) :
    b ∉ indented level line := by
  simp [indented, hb, h]

/-- The lines that show a forest of objects: for each object, before those in it, its type, indented by
its level. -/
def treeLines (types : List Json) : List Bytes :=
  (types.flatMap (Json.preorder 1)).map fun r => indented r.1 (bytesOf "type" r.2)

/-- The types of a signature in words, one to a line, and in JSON. -/
inductive Shows (text : Bytes) : Bool → List Json → List Bytes → Prop
  | flat (texts : List Bytes) (h : texts.flatten = text) :
      Shows text false (texts.map .string) (texts.map (indented 1))
  | tree (types : List Json) (hnode : ∀ r ∈ types.flatMap (Json.preorder 1), IsNode r.2)
      (h : types.flatMap (bytesOf "type") = text) :
      Shows text true types (treeLines types)

/-- The line above the types of a signature. -/
def header (text : String) (count : Nat) : Bytes :=
  utf8 (text ++ ": " ++ toString count ++ " single complete type(s)")

/-- What a record in words and the value of a record in JSON have in common. -/
structure Agree (tree : Bool) (text : String) (words : Bytes) (j : Json) : Prop where
  signature : j.get? "signature" = some (.text text)
  valid : ∃ valid, j.get? "valid" = some (.bool valid) ∧
    ∀ v, Says text .text v words ↔ valid = v
  error : j.get? "valid" = some (.bool false) →
    ∃ e message, j.get? "error" = some e ∧ e.get? "message" = some (.text message) ∧
      words = utf8 (text ++ ": error: " ++ message ++ "\n")
  types : j.get? "valid" = some (.bool true) →
    ∃ types lines, j.get? "types" = some (.array types) ∧ Shows (utf8 text) tree types lines ∧
      words = ofLines (header text types.length :: lines) ∧
      Lines words (header text types.length :: lines)

variable {limits : Limits} {text : String} {s : Signature}

/-- The types of a signature are all of its text. -/
theorem flatMap_text_excerpts (h : s.Sound) : s.excerpts.toList.flatMap (·.text) = s.text := by
  obtain ⟨-, ts, ht, hfit⟩ := h
  rw [Signature.toList_excerpts ht hfit, (tiling_cut _).whole, Element.renderAll_map_type, ht]

/-- The types of a signature alone, one to a line. -/
theorem shows_flat (h : s.Sound) :
    Shows s.text false (s.excerpts.toList.map fun x => .string x.text)
        (s.excerpts.toList.map fun x => indented 1 x.text) ∧
      typeLines false s = ofLines (s.excerpts.toList.map fun x => indented 1 x.text) := by
  have hwhole : (s.excerpts.toList.map (·.text)).flatten = s.text := by
    rw [← List.flatMap_def]
    exact flatMap_text_excerpts h
  have hshows := Shows.flat _ hwhole
  rw [List.map_map, List.map_map] at hshows
  refine ⟨hshows, ?_⟩
  rw [ofLines, List.flatMap_map]
  exact List.flatMap_congr fun x _ => (List.append_assoc _ _ _).symm

/-- The objects in the forest of a signature are those of elements. -/
theorem exists_of_mem_forest (helements : ∀ x ∈ s.excerpts.toList, x.IsElement) {r : Nat × Json}
    (hr : r ∈ (s.excerpts.forest.map treeJson).flatMap (Json.preorder 1)) :
    ∃ y : Excerpt, y.IsElement ∧ r.2 = treeJson y.tree := by
  obtain ⟨j, hj, hr⟩ := List.mem_flatMap.mp hr
  obtain ⟨t, ht, rfl⟩ := List.mem_map.mp hj
  obtain ⟨x, hx, rfl⟩ := List.mem_map.mp ht
  exact exists_of_mem_preorder (helements x hx) hr

/-- The types of a signature with all that is in them, one to a line. -/
theorem shows_tree (h : s.Sound) (helements : ∀ x ∈ s.excerpts.toList, x.IsElement) :
    Shows s.text true (s.excerpts.forest.map treeJson)
        (treeLines (s.excerpts.forest.map treeJson)) ∧
      typeLines true s = ofLines (treeLines (s.excerpts.forest.map treeJson)) := by
  constructor
  · refine .tree _ ?_ ?_
    · intro r hr
      obtain ⟨y, hy, hj⟩ := exists_of_mem_forest helements hr
      rw [hj]
      exact isNode_treeJson hy
    · rw [← flatMap_text_excerpts h, Excerpts.forest, List.flatMap_map, List.flatMap_map]
      exact List.flatMap_congr fun x _ => bytesOf_tree x
  · have hlines : treeLines (s.excerpts.forest.map treeJson) =
        (TypeTree.preorderAll 1 s.excerpts.forest).map fun r => indented r.1 r.2.text := by
      have hmap := congrArg (List.map fun q : Nat × Bytes => indented q.1 q.2)
        (map_preorderAll 1 s.excerpts.forest)
      rw [List.map_map, List.map_map] at hmap
      exact hmap
    rw [hlines, ofLines, List.flatMap_map]
    exact List.flatMap_congr fun x _ => (List.append_assoc _ _ _).symm

/-- The types of a signature are shown alike in both forms, in lines with nothing but types. -/
theorem exists_shows (tree : Bool) (h : s.Sound)
    (helements : ∀ x ∈ s.excerpts.toList, x.IsElement) :
    ∃ types lines, typesJson tree s = .array types ∧ types.length = s.excerpts.toList.length ∧
      Shows s.text tree types lines ∧ typeLines tree s = ofLines lines ∧
      ∀ line ∈ lines, ∀ b, Foreign b → b ≠ 0x20 → b ∉ line := by
  cases tree with
  | false =>
    obtain ⟨hshows, hlines⟩ := shows_flat h
    refine ⟨_, _, rfl, List.length_map .., hshows, hlines, ?_⟩
    intro line hline b hb hblank
    obtain ⟨x, hx, rfl⟩ := List.mem_map.mp hline
    exact not_mem_indented hblank (hb.not_mem_excerpt (helements x hx))
  | true =>
    obtain ⟨hshows, hlines⟩ := shows_tree h helements
    refine ⟨_, _, rfl, ?_, hshows, hlines, ?_⟩
    · show (s.excerpts.forest.map treeJson).length = _
      rw [List.length_map, Excerpts.forest, List.length_map]
    · intro line hline b hb hblank
      obtain ⟨r, hr, rfl⟩ := List.mem_map.mp hline
      obtain ⟨y, hy, hj⟩ := exists_of_mem_forest helements hr
      rw [hj, bytesOf_tree]
      exact not_mem_indented hblank (hb.not_mem_excerpt hy)

/-! ## Records -/

theorem not_mem_header {b : UInt8} (h : b ∉ utf8 text) (hdigit : Json.isDigit b = false)
    (hwords : b ∉ utf8 ": " ∧ b ∉ utf8 " single complete type(s)") (count : Nat) :
    b ∉ header text count := by
  have hcount : b ∉ utf8 (toString count) := fun hmem =>
    absurd (Json.isDigit_of_mem_toString hmem) (by simp [hdigit])
  simp only [header, utf8_append, List.mem_append, not_or]
  exact ⟨⟨⟨h, hwords.1⟩, hcount⟩, hwords.2⟩

theorem textRecord_ok (tree : Bool) (text : String) (s : Signature) :
    textRecord tree text (.ok s) = header text s.count ++ 0x0a :: typeLines tree s := by
  have hend : utf8 " single complete type(s)\n" = utf8 " single complete type(s)" ++ [0x0a] := by
    decide
  simp only [textRecord, header, utf8_append, hend, List.append_assoc, List.singleton_append]

/-- The text of a signature and its types have nothing in them but types. -/
theorem exists_shows_of_within (tree : Bool) (h : Signature.within limits (utf8 text) = .ok s) :
    (∀ b, Foreign b → b ∉ utf8 text) ∧
      ∃ types lines, typesJson tree s = .array types ∧ types.length = s.count ∧
        Shows (utf8 text) tree types lines ∧ typeLines tree s = ofLines lines ∧
        ∀ line ∈ lines, ∀ b, Foreign b → b ≠ 0x20 → b ∉ line := by
  have hsound := Signature.sound_of_within h
  have helements : ∀ x ∈ s.excerpts.toList, x.IsElement := fun x hx =>
    (Excerpt.Top.excerpt h hx).isElement
  have htext : s.text = utf8 text := by
    rw [(Signature.within_ok_iff.mp h).2]
    rfl
  constructor
  · intro b hb hmem
    rw [← htext, ← flatMap_text_excerpts hsound] at hmem
    obtain ⟨x, hx, hmem⟩ := List.mem_flatMap.mp hmem
    exact hb.not_mem_excerpt (helements x hx) hmem
  · rw [← htext, hsound.count_eq]
    exact exists_shows tree hsound helements

theorem agree_ok (tree : Bool) (h : Signature.within limits (utf8 text) = .ok s) :
    Agree tree text (textRecord tree text (.ok s)) (jsonRecord tree text (.ok s)) := by
  obtain ⟨hforeign, types, lines, htypes, hcount, hshows, hlines, hplain⟩ :=
    exists_shows_of_within tree h
  obtain ⟨hsignature, hvalid⟩ := get?_jsonRecord tree text (.ok s)
  refine ⟨hsignature, ⟨_, hvalid, fun v => (says_textRecord tree text (.ok s)).iff⟩, ?_, ?_⟩
  · intro hfalse
    rw [hvalid] at hfalse
    exact absurd hfalse (by simp [Except.isOk, Except.toBool])
  · intro _
    have hwords : textRecord tree text (.ok s) = ofLines (header text types.length :: lines) := by
      rw [textRecord_ok, ofLines_cons, hlines, hcount]
    refine ⟨types, lines, ?_, hshows, hwords, ?_⟩
    · rw [jsonRecord, get?_record, ← htypes]
      rfl
    · rw [hwords]
      refine lines_ofLines fun line hline => ?_
      rcases List.mem_cons.mp hline with rfl | hline
      · exact not_mem_header (hforeign 0x0a (by decide)) rfl (by decide) _
      · exact hplain line hline 0x0a (by decide) (by decide)

theorem agree_error (tree : Bool) (text : String) (e : BuildError) :
    Agree tree text (textRecord tree text (.error e)) (jsonRecord tree text (.error e)) := by
  obtain ⟨hsignature, hvalid⟩ := get?_jsonRecord tree text (.error e)
  refine ⟨hsignature, ⟨_, hvalid, fun v => (says_textRecord tree text (.error e)).iff⟩, ?_, ?_⟩
  · intro _
    refine ⟨errorJson e, e.message, ?_, ?_, ?_⟩
    · rw [jsonRecord, get?_record]
      rfl
    · cases e <;> rw [errorJson, get?_record] <;> rfl
    · rw [textRecord]
      simp only [utf8_append, List.append_assoc]
  · intro htrue
    rw [hvalid] at htrue
    exact absurd htrue (by simp [Except.isOk, Except.toBool])

end Report

/-- **The two forms of a record say the same**, under any limits and with or without the trees. Either
both have the same error message, or the lines of the one come from going through the forest of the
other. -/
theorem formats_agree (text : String) :
    (∀ limits tree, Report.Agree tree text
      (Report.textRecord tree text (Signature.within limits (utf8 text)))
      (Report.jsonRecord tree text (Signature.within limits (utf8 text)))) ∧
    ∀ o : Options, ∃ j, Json.parse (Report.record { o with format := .json } text) = some j ∧
      Json.parse (Report.record { o with format := .jsonLines } text) = some j ∧
      Report.Agree o.tree text (Report.record { o with format := .text } text) j := by
  have hagree : ∀ limits tree, Report.Agree tree text
      (Report.textRecord tree text (Signature.within limits (utf8 text)))
      (Report.jsonRecord tree text (Signature.within limits (utf8 text))) := by
    intro limits tree
    cases hmade : Signature.within limits (utf8 text) with
    | ok s => exact Report.agree_ok tree hmade
    | error e => exact Report.agree_error tree text e
  refine ⟨hagree, fun o => ⟨_, ?_, ?_, hagree (Report.limits o) o.tree⟩⟩
  · have hwhole := Report.whole_jsonRecord o.tree text (Report.verdict o text)
    exact Json.parse_written (Json.written_pretty hwhole 0) (Json.blank_newline 0)
  · have hwhole := Report.whole_jsonRecord o.tree text (Report.verdict o text)
    exact Json.parse_written (Json.written_compact hwhole) (Json.blank_newline 0)

end DBusTypes
