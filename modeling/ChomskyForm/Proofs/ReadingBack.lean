import ChomskyForm.Json.Description
import ChomskyForm.Proofs.WrittenText

set_option autoImplicit false
set_option relaxedAutoImplicit false

/-!
# What is written is read back

A description that has been written as JSON text is read back from this text. Readers and writers
are put together in the same way, so this is shown part by part: a reader takes from the front of a
text what a writer has put there, and leaves the tokens of what follows.

## Main definitions

* `ChomskyForm.Json.Reader.Reads`: the success of a reader.
* `ChomskyForm.Json.ReadsBack`: readers that take back what a writer writes.
* `ChomskyForm.Json.ReadsMembers`: what the members of an object make of a state, one after another.

## Main results

* `ChomskyForm.Json.ReadsBack.array`: arrays of what is read back are read back.
* `ChomskyForm.Json.ReadsMembers.reads_object`: objects are read member by member.
* `ChomskyForm.Description.ofJson_json`, `ChomskyForm.Description.ofJson_json_append`: the text of a
  description is read back, also if blanks follow it.
-/

namespace ChomskyForm

namespace Json

variable {α β σ : Type}

/-! ## Success of a reader -/

namespace Reader

variable {r : Reader α} {tokens rest rest' : List Token} {a : α}

/-- **Success of a reader.** It takes `a` from the front and leaves `rest`. That fewer tokens are
left than there were is part of the answer of the reader, so it need not be stated. -/
def Reads (r : Reader α) (tokens : List Token) (a : α) (rest : List Token) : Prop :=
  ∃ h, r tokens = .ok (a, ⟨rest, h⟩)

/-- A reader with a check succeeds if it reads something that passes. -/
lemma Reads.check (h : r.Reads tokens a rest) {f : α → Except ReadError β} {b : β}
    (hf : f a = .ok b) : (r.check f).Reads tokens b rest := by
  obtain ⟨hlt, h⟩ := h
  refine ⟨hlt, ?_⟩
  simp only [Reader.check, h, hf]

/-- A reader that makes something of what it reads succeeds if it reads anything. -/
lemma Reads.map (h : r.Reads tokens a rest) (f : α → β) : (r.map f).Reads tokens (f a) rest :=
  h.check rfl

/-- A string token is read as its content. -/
lemma reads_string (content : String) (rest : List Token) :
    string.Reads (.string content :: rest) content rest :=
  ⟨Nat.lt_succ_self _, rfl⟩

/-- A value is read behind the colon of its member. -/
lemma Reads.afterColon (h : r.Reads tokens a rest) :
    r.afterColon.Reads (.colon :: tokens) a rest := by
  obtain ⟨hlt, h⟩ := h
  refine ⟨Nat.lt_succ_of_lt hlt, ?_⟩
  simp only [Reader.afterColon, h]

/-- A field that has not been seen before is read and stored. -/
lemma Reads.field (h : r.Reads tokens a rest) (name : String) (set : α → σ) :
    (field name none r set).Reads (.colon :: tokens) (set a) rest :=
  h.afterColon.map set

/-- The items of an array end with a bracket. -/
lemma reads_arrayRest_nil (r : Reader α) (rest : List Token) :
    r.arrayRest.Reads (.closeBracket :: rest) [] rest := by
  refine ⟨Nat.lt_succ_self _, ?_⟩
  rw [arrayRest]

/-- A further item of an array is read behind a comma, and then the others are. -/
lemma Reads.arrayRest_cons (h : r.Reads tokens a rest) {as : List α}
    (has : r.arrayRest.Reads rest as rest') :
    r.arrayRest.Reads (.comma :: tokens) (a :: as) rest' := by
  obtain ⟨hlt, h⟩ := h
  obtain ⟨hlt', has⟩ := has
  refine ⟨Nat.lt_succ_of_lt (Nat.lt_trans hlt' hlt), ?_⟩
  rw [arrayRest]
  simp only [h, has]

/-- An array may be empty. -/
lemma reads_array_nil (r : Reader α) (rest : List Token) :
    r.array.Reads (.openBracket :: .closeBracket :: rest) [] rest :=
  ⟨Nat.lt_succ_of_lt (Nat.lt_succ_self _), rfl⟩

/-- The first item of an array is read without a comma. It may not be mistaken for the end of the
array, so it must not begin with a bracket that closes one. -/
lemma Reads.array_cons (h : r.Reads tokens a rest)
    (hopen : ∀ tokens', tokens ≠ .closeBracket :: tokens') {as : List α}
    (has : r.arrayRest.Reads rest as rest') :
    r.array.Reads (.openBracket :: tokens) (a :: as) rest' := by
  obtain ⟨hlt, h⟩ := h
  obtain ⟨hlt', has⟩ := has
  refine ⟨Nat.lt_succ_of_lt (Nat.lt_trans hlt' hlt), ?_⟩
  rw [array]
  · simp only [h, has]
  · exact fun rest heq => hopen rest heq

variable {member : σ → String → Reader σ} {s s' s'' : σ} {key : String}

/-- The members of an object end with a brace. -/
lemma reads_objectRest_nil (member : σ → String → Reader σ) (s : σ) (rest : List Token) :
    (objectRest member s).Reads (.closeBrace :: rest) s rest := by
  refine ⟨Nat.lt_succ_self _, ?_⟩
  rw [objectRest]

/-- A further member of an object is read behind a comma: its key says how to go on, and the
members after it start from the state that it leaves. -/
lemma Reads.objectRest_cons (h : (member s key).Reads tokens s' rest)
    (hs : (objectRest member s').Reads rest s'' rest') :
    (objectRest member s).Reads (.comma :: .string key :: tokens) s'' rest' := by
  obtain ⟨hlt, h⟩ := h
  obtain ⟨hlt', hs⟩ := hs
  refine ⟨Nat.lt_succ_of_lt (Nat.lt_succ_of_lt (Nat.lt_trans hlt' hlt)), ?_⟩
  rw [objectRest]
  simp only [h, hs]

/-- An object may be empty, and leaves the state as it is. -/
lemma reads_object_nil (expected : Expected) (member : σ → String → Reader σ) (s : σ)
    (rest : List Token) :
    (object expected member s).Reads (.openBrace :: .closeBrace :: rest) s rest :=
  ⟨Nat.lt_succ_of_lt (Nat.lt_succ_self _), rfl⟩

/-- The first member of an object is read without a comma. A key is a string, so it cannot be
mistaken for the end of the object. -/
lemma Reads.object_cons (h : (member s key).Reads tokens s' rest) (expected : Expected)
    (hs : (objectRest member s').Reads rest s'' rest') :
    (object expected member s).Reads (.openBrace :: .string key :: tokens) s'' rest' := by
  obtain ⟨hlt, h⟩ := h
  obtain ⟨hlt', hs⟩ := hs
  refine ⟨Nat.lt_succ_of_lt (Nat.lt_succ_of_lt (Nat.lt_trans hlt' hlt)), ?_⟩
  simp only [object, h, hs]

end Reader

/-! ## Readers and writers -/

/-- **Reading back.** The reader takes from the front of a text what has been written there, and
leaves the tokens of what follows. Any text may follow, so written values can be put one behind the
other. -/
structure ReadsBack (r : Reader α) (write : α → String) : Prop where
  /-- What has been written is read. -/
  reads : ∀ a cs, r.Reads (lex ((write a).toList ++ cs)) a (lex cs)
  /-- It does not begin with the end of an array. -/
  opens : ∀ a cs tokens, lex ((write a).toList ++ cs) ≠ .closeBracket :: tokens

namespace ReadsBack

variable {r : Reader α} {write : α → String}

/-- Strings are read back: a quoted text is one token, and the token holds the text. -/
lemma string : ReadsBack Reader.string quote where
  reads text cs := by
    rw [lex_quote]
    exact Reader.reads_string text _
  opens text cs tokens := by
    rw [lex_quote]
    simp

/-- What is made of a value is read back, if the value written is one that it is made of. Sets are
written as lists, and are made of lists when they are read. -/
lemma map (h : ReadsBack r write) {f : α → β} {g : β → α} (hfg : ∀ b, f (g b) = b) :
    ReadsBack (r.map f) fun b => write (g b) where
  reads b cs := by
    have hmap := (h.reads (g b) cs).map f
    rwa [hfg] at hmap
  opens b cs := h.opens (g b) cs

/-- The items of an array after the first one are read back, by induction on the items. -/
lemma reads_arrayRest (h : ReadsBack r write) (as : List α) (cs : List Char) :
    r.arrayRest.Reads (lex ((as.flatMap fun a => ',' :: (write a).toList) ++ ']' :: cs)) as
      (lex cs) := by
  induction as with
  | nil =>
    rw [List.flatMap_nil, List.nil_append, lex_mark .closeBracket rfl]
    exact Reader.reads_arrayRest_nil r _
  | cons a as ih =>
    rw [List.flatMap_cons, List.append_assoc, List.cons_append, lex_mark .comma rfl]
    exact (h.reads a _).arrayRest_cons ih

/-- **Arrays** of what is read back are read back. So are arrays of arrays.

**Proof sketch.** An array without items is a pair of brackets. Otherwise the first item is read
behind the bracket, which it cannot be mistaken for, and the others are read by
`reads_arrayRest`. -/
theorem array (h : ReadsBack r write) : ReadsBack r.array fun as => Json.array (as.map write) where
  reads as cs := by
    cases as with
    | nil =>
      rw [List.map_nil, toList_array_nil, List.cons_append, lex_mark .openBracket rfl,
        List.cons_append, lex_mark .closeBracket rfl]
      exact Reader.reads_array_nil r _
    | cons a as =>
      rw [List.map_cons, toList_array_cons, List.flatMap_map, List.append_assoc, List.append_assoc,
        List.cons_append, lex_mark .openBracket rfl]
      exact (h.reads a _).array_cons (h.opens a _) (h.reads_arrayRest as cs)
  opens as cs tokens := by
    cases as with
    | nil =>
      rw [List.map_nil, toList_array_nil, List.cons_append, lex_mark .openBracket rfl]
      simp
    | cons a as =>
      rw [List.map_cons, toList_array_cons, List.append_assoc, List.append_assoc,
        List.cons_append, lex_mark .openBracket rfl]
      simp

end ReadsBack

/-! ## Objects -/

/-- **What the members of an object make of a state**, one after another. Each member is given by
its key and the text of its value, and may be followed by any other text. -/
inductive ReadsMembers (member : σ → String → Reader σ) :
    σ → List (String × String) → σ → Prop where
  /-- No members leave the state as it is. -/
  | nil (s : σ) : ReadsMembers member s [] s
  /-- The first member makes a state, and the others go on from there. -/
  | cons {s s' s'' : σ} {key text : String} {fields : List (String × String)}
      (h : ∀ cs, (member s key).Reads (.colon :: lex (text.toList ++ cs)) s' (lex cs))
      (hrest : ReadsMembers member s' fields s'') :
      ReadsMembers member s ((key, text) :: fields) s''

namespace ReadsMembers

variable {member : σ → String → Reader σ} {s s' : σ} {fields : List (String × String)}

/-- The members of an object after the first one are read, by induction on what they make of the
state. -/
lemma reads_objectRest (h : ReadsMembers member s fields s') (cs : List Char) :
    (Reader.objectRest member s).Reads
      (lex ((fields.flatMap fun field => ',' :: fieldText field) ++ '\x7d' :: cs)) s' (lex cs) := by
  induction h with
  | nil s =>
    rw [List.flatMap_nil, List.nil_append, lex_mark .closeBrace rfl]
    exact Reader.reads_objectRest_nil member s _
  | @cons s s' s'' key text fields h _ ih =>
    rw [List.flatMap_cons, List.append_assoc, List.cons_append, lex_mark .comma rfl, lex_fieldText]
    exact (h _).objectRest_cons ih

/-- **Objects** are read member by member. What is expected in their place if there is no object
makes no difference. -/
theorem reads_object (h : ReadsMembers member s fields s') (expected : Expected) (cs : List Char) :
    (Reader.object expected member s).Reads (lex ((object fields).toList ++ cs)) s' (lex cs) := by
  cases h with
  | nil =>
    rw [toList_object_nil, List.cons_append, lex_mark .openBrace rfl, List.cons_append,
      lex_mark .closeBrace rfl]
    exact Reader.reads_object_nil expected member s _
  | @cons _ s' s'' key text fields h hrest =>
    rw [toList_object_cons, List.append_assoc, List.append_assoc, List.cons_append,
      lex_mark .openBrace rfl, lex_fieldText]
    exact (h _).object_cons expected (hrest.reads_objectRest cs)

end ReadsMembers

/-! ## Descriptions -/

/-- Names as an array of strings. -/
def namesText (names : List Name) : String := array (names.map quote)

/-- Right-hand sides as an array of arrays, in their order. -/
def rightsText (rights : SortedSet (List Name)) : String := array (rights.toList.map namesText)

/-- Sets of names are read back from the list of their elements. -/
lemma readsBack_names : ReadsBack readNames fun names => namesText names.toList :=
  ReadsBack.string.array.map SortedSet.ofList_toList

/-- Sets of right-hand sides are read back from the list of their elements. -/
lemma readsBack_rights : ReadsBack readRights rightsText :=
  ReadsBack.string.array.array.map SortedSet.ofList_toList

/-- The entries of productions are inserted one after another, in the order in which they are
written, into what has been read before. -/
lemma readsMembers_productions (entries : List (Name × SortedSet (List Name)))
    (productions : SortedMap Name (SortedSet (List Name))) :
    ReadsMembers
      (fun productions left =>
        readRights.afterColon.map fun rights => productions.insert left rights)
      productions (entries.map fun entry => (entry.1, rightsText entry.2))
      (entries.foldl (fun productions entry => productions.insert entry.1 entry.2)
        productions) := by
  induction entries generalizing productions with
  | nil => exact .nil productions
  | cons entry entries ih =>
    exact .cons (fun cs => (readsBack_rights.reads entry.2 cs).afterColon.map _) (ih _)

/-- Productions are read back: inserting the entries of a map into an empty one makes this map. -/
lemma reads_productions (productions : SortedMap Name (SortedSet (List Name))) (cs : List Char) :
    readProductions.Reads
      (lex ((object (productions.toList.map fun entry =>
        (entry.1, rightsText entry.2))).toList ++ cs)) productions (lex cs) := by
  have hread := (readsMembers_productions productions.toList ∅).reads_object .map cs
  have hall : productions.toList.foldl (fun m entry => m.insert entry.1 entry.2) ∅ = productions :=
    SortedMap.ofList_toList productions
  rwa [hall] at hread

/-- **A description** is read back, and what follows it is left.

**Proof sketch.** Its four fields are read one after another, each for the first time, and fill the
state of the reader. This state passes the check for missing fields and is the description. -/
theorem readDescription_json (d : Description) (cs : List Char) :
    readDescription (lex (d.json.toList ++ cs)) = .ok (d, lex cs) := by
  have hmembers : ReadsMembers DescriptionFields.member {}
      [("variables", namesText d.nonterminals.toList), ("terminals", namesText d.terminals.toList),
        ("start", quote d.start),
        ("productions", object (d.productions.toList.map fun entry =>
          (entry.1, rightsText entry.2)))]
      ⟨some d.nonterminals, some d.terminals, some d.start, some d.productions⟩ :=
    .cons (fun cs => (readsBack_names.reads d.nonterminals cs).field _ _) <|
    .cons (fun cs => (readsBack_names.reads d.terminals cs).field _ _) <|
    .cons (fun cs => (ReadsBack.string.reads d.start cs).field _ _) <|
    .cons (fun cs => (reads_productions d.productions cs).field _ _) (.nil _)
  have hread : ((Reader.object .description DescriptionFields.member {}).check
      DescriptionFields.toDescription).Reads (lex (d.json.toList ++ cs)) d (lex cs) :=
    (hmembers.reads_object .description cs).check rfl
  have hopen : ∃ tokens, lex (d.json.toList ++ cs) = .openBrace :: tokens := by
    rw [Description.json, toList_object_cons, List.append_assoc, List.append_assoc,
      List.cons_append, lex_mark .openBrace rfl]
    exact ⟨_, rfl⟩
  obtain ⟨tokens, hopen⟩ := hopen
  rw [hopen] at hread ⊢
  obtain ⟨hlt, hread⟩ := hread
  simp only [readDescription, hread]

end Json

namespace Description

/-- The text of a description is read back if nothing but blanks follows it, such as the end of a
line. -/
theorem ofJson_json_append (d : Description) {blanks : String}
    (hblanks : Json.lex blanks.toList = []) : ofJson (d.json ++ blanks) = .ok d := by
  rw [ofJson, Json.readAll, String.toList_append, Json.readDescription_json, hblanks]

/-- **The text of a description** is read back. So descriptions with the same text are equal, and
every description is the result of reading some text. -/
theorem ofJson_json (d : Description) : ofJson d.json = .ok d := by
  have hblanks : Json.lex "".toList = [] := by
    rw [String.toList_empty, Json.lex]
  have hread := ofJson_json_append d hblanks
  rwa [String.append_empty] at hread

end Description

end ChomskyForm
