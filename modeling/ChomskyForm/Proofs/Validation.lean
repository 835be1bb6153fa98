import Mathlib.Data.List.Find
import Mathlib.Data.Option.Basic
import ChomskyForm.Proofs.RoundTrip

set_option autoImplicit false
set_option relaxedAutoImplicit false

/-!
# Validation is exact

A description is accepted exactly when six conditions hold: no declared name is the reserved one,
no name is declared twice, the start symbol is a variable, every left-hand side is a variable,
every name in a right-hand side may stand there, and every variable has an alternative. They are
looked at in this order, and the reason for a rejection is the first one that does not hold, with
the least name that is to blame. The alternatives of an accepted description are its right-hand
sides without reserved names.

## Main definitions

* `ChomskyForm.SortedSet.LeastWith`: the least member with a property.
* `ChomskyForm.Description.Valid`: descriptions that meet the conditions.
* `ChomskyForm.Description.Rejects`: the reason for which a description is rejected.

## Main results

* `ChomskyForm.Description.undeclaredSymbol?_eq_some`: the symbol that is reported.
* `ChomskyForm.Description.violation?_eq_some`: the first violated condition.
* `ChomskyForm.Description.Valid.mem_alternatives`: the alternatives of an accepted description.
* `ChomskyForm.Grammar.ofDescription_exact`: what validation accepts, what it reports and what it
  makes.
-/

namespace ChomskyForm

/-! ## Least members -/

namespace SortedSet

variable {α β : Type} [Ord α] {s : SortedSet α} {a : α}

/-- **The least member with a property**, in the order that a set lists its members in. -/
structure LeastWith (s : SortedSet α) (p : α → Prop) (a : α) : Prop where
  /-- It is a member. -/
  mem : a ∈ s
  /-- It has the property. -/
  holds : p a
  /-- It is below all other members with the property. -/
  least : ∀ b ∈ s, p b → b ≠ a → compare a b = .lt

variable [Std.TransOrd α]

/-- **The first member found** is the least one, since members are listed in their order. -/
lemma find?_eq_some_iff {p : α → Bool} :
    s.toList.find? p = some a ↔ s.LeastWith (p · = true) a := by
  constructor
  · intro h
    exact ⟨List.mem_of_find?_eq_some h, List.find?_some h, fun b hb hp hne =>
      compare_of_find? h hb hp hne⟩
  · rintro ⟨ha, hp, hleast⟩
    obtain ⟨b, hb⟩ := Option.isSome_iff_exists.1 (List.find?_isSome.2 ⟨a, ha, hp⟩)
    rw [hb]
    by_contra hne
    -- of two different members with the property, each would be below the other
    have hba : compare b a = .lt := compare_of_find? hb ha hp fun h => hne (congrArg some h.symm)
    have hab : compare a b = .lt := hleast b (List.mem_of_find?_eq_some hb) (List.find?_some hb)
      fun h => hne (congrArg some h)
    exact Std.OrientedCmp.not_lt_of_lt hba hab

/-- What is said of the first member found is said of the least one. A check that reports a name is
of this form. -/
lemma map_find?_eq_some_iff {p : α → Bool} {f : α → β} {b : β} :
    (s.toList.find? p).map f = some b ↔ ∃ a, s.LeastWith (p · = true) a ∧ b = f a := by
  simp only [Option.map_eq_some_iff, find?_eq_some_iff, eq_comm (b := b)]

/-- What is found first is found at the least member at which something is found. A check inside a
check is of this form. -/
lemma findSome?_eq_some_iff {f : α → Option β} {c : β} :
    s.toList.findSome? f = some c ↔
      ∃ a, s.LeastWith (fun a => (f a).isSome = true) a ∧ f a = some c := by
  simp only [← find?_eq_some_iff, List.find?_eq_some_iff_append, List.findSome?_eq_some_iff]
  constructor
  · rintro ⟨before, a, after, heq, ha, hbefore⟩
    exact ⟨a, ⟨by rw [ha]; rfl, before, after, heq, fun b hb => by rw [hbefore b hb]; rfl⟩, ha⟩
  · rintro ⟨a, ⟨-, before, after, heq, hbefore⟩, ha⟩
    exact ⟨before, a, after, heq, ha, fun b hb => by simpa using hbefore b hb⟩

end SortedSet

namespace Description

variable {d : Description} {e : GrammarError}

/-! ## The conditions -/

/-- The reserved name is not declared, neither as a variable nor as a terminal. -/
def Unreserved (d : Description) : Prop := epsilonName ∉ d.nonterminals ∧ epsilonName ∉ d.terminals

/-- No name is declared both as a variable and as a terminal. -/
def Separate (d : Description) : Prop := ∀ v ∈ d.nonterminals, v ∉ d.terminals

/-- Every left-hand side is a variable. -/
def LeftDeclared (d : Description) : Prop := ∀ v ∈ d.productions.keys, v ∈ d.nonterminals

/-- The names that may stand in a right-hand side: the reserved one, the variables, the terminals.
-/
def Known (d : Description) (name : Name) : Prop :=
  name = epsilonName ∨ name ∈ d.nonterminals ∨ name ∈ d.terminals

/-- Right-hand sides with a name that may not stand there. The name need not be the first one. -/
def Offends (d : Description) (names : List Name) : Prop := ∃ name ∈ names, ¬ d.Known name

/-- No right-hand side offends, whatever its left-hand side. -/
def RightDeclared (d : Description) : Prop := ∀ v, ∀ names ∈ d.rightsOf v, ¬ d.Offends names

/-- Every variable has an alternative, even if it is an empty one. -/
def Inhabited (d : Description) : Prop := ∀ v ∈ d.nonterminals, ∃ names, names ∈ d.rightsOf v

/-- **Valid descriptions** meet all conditions. What the conditions say is independent of how they
are looked for. -/
structure Valid (d : Description) : Prop where
  /-- The reserved name is not declared. -/
  unreserved : d.Unreserved
  /-- No name is declared both as a variable and as a terminal. -/
  separate : d.Separate
  /-- The start symbol is a variable. -/
  start_mem : d.start ∈ d.nonterminals
  /-- Every left-hand side is a variable. -/
  left : d.LeftDeclared
  /-- Every name in a right-hand side may stand there. -/
  right : d.RightDeclared
  /-- Every variable has an alternative. -/
  inhabited : d.Inhabited

/-- **Reasons for a rejection.** Each one is that of a condition which does not hold, when all
conditions before it do, and says what is the first to violate it. So there is at most one reason
for each description. -/
inductive Rejects (d : Description) : GrammarError → Prop where
  /-- The reserved name is declared. -/
  | reservedName (h : ¬ d.Unreserved) : Rejects d (.reservedName epsilonName)
  /-- The least name that is declared twice. -/
  | overlappingName {name : Name} (h₁ : d.Unreserved)
      (h : d.nonterminals.LeastWith (· ∈ d.terminals) name) : Rejects d (.overlappingName name)
  /-- The start symbol is not a variable. -/
  | unknownStart (h₁ : d.Unreserved) (h₂ : d.Separate) (h : d.start ∉ d.nonterminals) :
      Rejects d (.unknownStart d.start)
  /-- The least left-hand side that is not a variable. -/
  | undeclaredVariable {name : Name} (h₁ : d.Unreserved) (h₂ : d.Separate)
      (h₃ : d.start ∈ d.nonterminals) (h : d.productions.keys.LeastWith (· ∉ d.nonterminals) name) :
      Rejects d (.undeclaredVariable name)
  /-- The first name that may not stand in the first right-hand side which offends, for the least
  left-hand side with one. -/
  | undeclaredSymbol {v symbol : Name} {before after : List Name} (h₁ : d.Unreserved)
      (h₂ : d.Separate) (h₃ : d.start ∈ d.nonterminals) (h₄ : d.LeftDeclared)
      (hv : d.productions.keys.LeastWith (fun v => ∃ names ∈ d.rightsOf v, d.Offends names) v)
      (hright : (d.rightsOf v).LeastWith d.Offends (before ++ symbol :: after))
      (hbefore : ∀ name ∈ before, d.Known name) (hsymbol : ¬ d.Known symbol) :
      Rejects d (.undeclaredSymbol v symbol)
  /-- The least variable without alternatives. -/
  | emptyProductionSet {name : Name} (h₁ : d.Unreserved) (h₂ : d.Separate)
      (h₃ : d.start ∈ d.nonterminals) (h₄ : d.LeftDeclared) (h₅ : d.RightDeclared)
      (h : d.nonterminals.LeastWith (fun v => ∀ names, names ∉ d.rightsOf v) name) :
      Rejects d (.emptyProductionSet name)

/-! ## What each check finds -/

/-- Only left-hand sides have right-hand sides; anything else has none. -/
lemma mem_keys_of_mem_rightsOf {v : Name} {names : List Name} (h : names ∈ d.rightsOf v) :
    v ∈ d.productions.keys := by
  rw [SortedMap.mem_keys_iff_isSome]
  unfold rightsOf at h
  cases hv : d.productions.get? v with
  | none => simp [hv] at h
  | some rights => rfl

/-- The first check finds nothing exactly if the reserved name is not declared. -/
lemma reservedName?_eq_none : d.reservedName? = none ↔ d.Unreserved := by
  simp only [reservedName?, Option.map_eq_none_iff, List.find?_eq_none, List.mem_append,
    decide_eq_true_eq, Unreserved, SortedSet.mem_def]
  constructor
  · exact fun h => ⟨fun hm => h _ (.inl hm) rfl, fun hm => h _ (.inr hm) rfl⟩
  · rintro ⟨hvar, hterm⟩ name (hm | hm) rfl
    · exact hvar hm
    · exact hterm hm

/-- The first check can report the reserved name only. -/
lemma reservedName?_eq_some :
    d.reservedName? = some e ↔ ¬ d.Unreserved ∧ e = .reservedName epsilonName := by
  rw [← reservedName?_eq_none]
  unfold reservedName?
  cases hfind : (d.nonterminals.toList ++ d.terminals.toList).find? (· = epsilonName) with
  | none => simp
  | some name =>
    obtain rfl : name = epsilonName := by simpa using List.find?_some hfind
    simp [eq_comm]

/-- The second check finds nothing exactly if no name is declared twice. -/
lemma overlappingName?_eq_none : d.overlappingName? = none ↔ d.Separate := by
  simp [overlappingName?, Separate, SortedSet.mem_def]

/-- The second check reports the least name that is declared twice. -/
lemma overlappingName?_eq_some :
    d.overlappingName? = some e ↔
      ∃ name, d.nonterminals.LeastWith (· ∈ d.terminals) name ∧ e = .overlappingName name := by
  simp only [overlappingName?, SortedSet.map_find?_eq_some_iff, decide_eq_true_eq]

/-- The third check finds nothing exactly if the start symbol is a variable. -/
lemma unknownStart?_eq_none : d.unknownStart? = none ↔ d.start ∈ d.nonterminals := by
  simp [unknownStart?]

/-- The third check reports the start symbol, if it is not a variable. -/
lemma unknownStart?_eq_some :
    d.unknownStart? = some e ↔ d.start ∉ d.nonterminals ∧ e = .unknownStart d.start := by
  simp [unknownStart?, eq_comm]

/-- The fourth check finds nothing exactly if all left-hand sides are variables. -/
lemma undeclaredVariable?_eq_none : d.undeclaredVariable? = none ↔ d.LeftDeclared := by
  simp [undeclaredVariable?, LeftDeclared, SortedSet.mem_def]

/-- The fourth check reports the least left-hand side that is not a variable. -/
lemma undeclaredVariable?_eq_some :
    d.undeclaredVariable? = some e ↔
      ∃ name, d.productions.keys.LeastWith (· ∉ d.nonterminals) name ∧
        e = .undeclaredVariable name := by
  simp only [undeclaredVariable?, SortedSet.map_find?_eq_some_iff, decide_eq_true_eq]

/-- The variables without right-hand sides are those that no right-hand side belongs to, with or
without an entry. -/
lemma isEmpty_rightsOf {v : Name} :
    (d.rightsOf v).isEmpty = true ↔ ∀ names, names ∉ d.rightsOf v := by
  rw [SortedSet.isEmpty, List.isEmpty_iff, List.eq_nil_iff_forall_not_mem]
  rfl

/-- The last check finds nothing exactly if every variable has an alternative. -/
lemma emptyProductionSet?_eq_none : d.emptyProductionSet? = none ↔ d.Inhabited := by
  simp only [emptyProductionSet?, Option.map_eq_none_iff, List.find?_eq_none, isEmpty_rightsOf,
    not_forall, not_not, Inhabited, SortedSet.mem_def]

/-- The last check reports the least variable without alternatives. -/
lemma emptyProductionSet?_eq_some :
    d.emptyProductionSet? = some e ↔
      ∃ name, d.nonterminals.LeastWith (fun v => ∀ names, names ∉ d.rightsOf v) name ∧
        e = .emptyProductionSet name := by
  simp only [emptyProductionSet?, SortedSet.map_find?_eq_some_iff, isEmpty_rightsOf]

/-! ## Undeclared symbols -/

/-- A name may stand in a right-hand side exactly if the check admits it. -/
lemma declares_iff {name : Name} : d.declares name = true ↔ d.Known name := decide_eq_true_iff

/-- The check does not admit the other names. -/
lemma not_declares_iff {name : Name} : (!d.declares name) = true ↔ ¬ d.Known name := by
  rw [← declares_iff, Bool.not_eq_true', Bool.not_eq_true]

/-- The names of a right-hand side are looked at in their order, so the one that is found comes
after names which may stand there. -/
lemma find?_declares_eq_some {names : List Name} {symbol : Name} :
    names.find? (fun name => !d.declares name) = some symbol ↔
      ∃ before after, names = before ++ symbol :: after ∧ (∀ name ∈ before, d.Known name) ∧
        ¬ d.Known symbol := by
  simp only [List.find?_eq_some_iff_append, not_declares_iff, Bool.not_not, declares_iff]
  constructor
  · rintro ⟨hsymbol, before, after, heq, hbefore⟩
    exact ⟨before, after, heq, hbefore, hsymbol⟩
  · rintro ⟨before, after, heq, hbefore, hsymbol⟩
    exact ⟨hsymbol, before, after, heq, hbefore⟩

/-- Something is found in a right-hand side exactly if it offends. -/
lemma isSome_find?_declares {names : List Name} :
    (names.find? fun name => !d.declares name).isSome = true ↔ d.Offends names := by
  simp only [List.find?_isSome, not_declares_iff, Offends]

/-- The check of one left-hand side: the first name that may not stand in one of its right-hand
sides. -/
def undeclaredSymbolOf? (d : Description) (v : Name) : Option GrammarError :=
  (d.rightsOf v).toList.findSome? fun names =>
    (names.find? fun name => !d.declares name).map (.undeclaredSymbol v)

/-- The left-hand sides are looked at in their order, and each of them by itself. -/
lemma undeclaredSymbol?_eq :
    d.undeclaredSymbol? = d.productions.keys.toList.findSome? d.undeclaredSymbolOf? := by
  have hentry : ∀ entry ∈ d.productions.toList, entry.2 = d.rightsOf entry.1 := by
    rintro ⟨v, rights⟩ hentry
    rw [rightsOf, SortedMap.mem_toList.1 hentry, Option.getD_some]
  unfold undeclaredSymbol? SortedMap.keys
  rw [List.findSome?_map]
  generalize d.productions.toList = entries at hentry
  induction entries with
  | nil => rfl
  | cons entry entries ih =>
    rw [List.findSome?_cons, List.findSome?_cons, hentry entry List.mem_cons_self,
      ih fun entry hm => hentry entry (List.mem_cons_of_mem _ hm)]
    rfl

/-- Something is found at a left-hand side exactly if one of its right-hand sides offends. -/
lemma isSome_undeclaredSymbolOf? {v : Name} :
    (d.undeclaredSymbolOf? v).isSome = true ↔ ∃ names ∈ d.rightsOf v, d.Offends names := by
  simp only [undeclaredSymbolOf?, List.findSome?_isSome_iff, Option.isSome_map,
    isSome_find?_declares,
    SortedSet.mem_def]

/-- **The symbol that is reported** is the first one that may not stand in the first right-hand
side which offends, for the least left-hand side with one.

**Proof sketch.** There is a search in a search in a search: for a left-hand side, for one of its
right-hand sides, and for a name in it. Each of them ends at the least, or first, place at which
the one inside finds something. -/
lemma undeclaredSymbol?_eq_some :
    d.undeclaredSymbol? = some e ↔ ∃ v before symbol after,
      d.productions.keys.LeastWith (fun v => ∃ names ∈ d.rightsOf v, d.Offends names) v ∧
        (d.rightsOf v).LeastWith d.Offends (before ++ symbol :: after) ∧
        (∀ name ∈ before, d.Known name) ∧ ¬ d.Known symbol ∧ e = .undeclaredSymbol v symbol := by
  simp only [undeclaredSymbol?_eq, SortedSet.findSome?_eq_some_iff, isSome_undeclaredSymbolOf?]
  refine exists_congr fun v => ?_
  simp only [undeclaredSymbolOf?, SortedSet.findSome?_eq_some_iff, Option.isSome_map,
    isSome_find?_declares, Option.map_eq_some_iff, find?_declares_eq_some]
  constructor
  · rintro ⟨hv, _, hright, symbol, ⟨before, after, rfl, hbefore, hsymbol⟩, rfl⟩
    exact ⟨before, symbol, after, hv, hright, hbefore, hsymbol, rfl⟩
  · rintro ⟨before, symbol, after, hv, hright, hbefore, hsymbol, rfl⟩
    exact ⟨hv, _, hright, symbol, ⟨before, after, rfl, hbefore, hsymbol⟩, rfl⟩

/-- Nothing is reported exactly if no right-hand side offends. A name without an entry has no
right-hand sides, so nothing is overlooked. -/
lemma undeclaredSymbol?_eq_none : d.undeclaredSymbol? = none ↔ d.RightDeclared := by
  rw [undeclaredSymbol?_eq, List.findSome?_eq_none_iff]
  simp only [← Option.not_isSome_iff_eq_none, isSome_undeclaredSymbolOf?, not_exists, not_and]
  exact ⟨fun h v names hnames => h v (mem_keys_of_mem_rightsOf hnames) names hnames,
    fun h v _ => h v⟩

/-! ## The first violated condition -/

/-- **No condition is violated** in a valid description, and in no other one: each of the six
checks finds nothing exactly if its condition holds. -/
lemma violation?_eq_none_iff_valid : d.violation? = none ↔ d.Valid := by
  rw [Grammar.violation?_eq_none, reservedName?_eq_none, overlappingName?_eq_none,
    unknownStart?_eq_none,
    undeclaredVariable?_eq_none, undeclaredSymbol?_eq_none, emptyProductionSet?_eq_none]
  constructor
  · rintro ⟨h₁, h₂, h₃, h₄, h₅, h₆⟩
    exact ⟨h₁, h₂, h₃, h₄, h₅, h₆⟩
  · rintro ⟨h₁, h₂, h₃, h₄, h₅, h₆⟩
    exact ⟨h₁, h₂, h₃, h₄, h₅, h₆⟩

/-- **The first violated condition** is the reason for a rejection.

**Proof sketch.** The checks are made one after the other until one of them finds something. So a
check is the one that reports exactly if those before it find nothing, which means that their
conditions hold. -/
lemma violation?_eq_some : d.violation? = some e ↔ d.Rejects e := by
  simp only [violation?, Option.orElse_eq_some, reservedName?_eq_none, reservedName?_eq_some,
    overlappingName?_eq_none, overlappingName?_eq_some, unknownStart?_eq_none,
    unknownStart?_eq_some,
    undeclaredVariable?_eq_none, undeclaredVariable?_eq_some, undeclaredSymbol?_eq_none,
    undeclaredSymbol?_eq_some, emptyProductionSet?_eq_some]
  constructor
  · rintro (⟨h, rfl⟩ | ⟨h₁, ⟨name, h, rfl⟩ | ⟨h₂, ⟨h, rfl⟩ | ⟨h₃, ⟨name, h, rfl⟩ | ⟨h₄, h⟩⟩⟩⟩)
    · exact .reservedName h
    · exact .overlappingName h₁ h
    · exact .unknownStart h₁ h₂ h
    · exact .undeclaredVariable h₁ h₂ h₃ h
    · rcases h with ⟨v, before, symbol, after, hv, hright, hbefore, hsymbol, rfl⟩ |
        ⟨h₅, name, h, rfl⟩
      · exact .undeclaredSymbol h₁ h₂ h₃ h₄ hv hright hbefore hsymbol
      · exact .emptyProductionSet h₁ h₂ h₃ h₄ h₅ h
  · intro h
    cases h with
    | reservedName h => exact .inl ⟨h, rfl⟩
    | overlappingName h₁ h => exact .inr ⟨h₁, .inl ⟨_, h, rfl⟩⟩
    | unknownStart h₁ h₂ h => exact .inr ⟨h₁, .inr ⟨h₂, .inl ⟨h, rfl⟩⟩⟩
    | undeclaredVariable h₁ h₂ h₃ h => exact .inr ⟨h₁, .inr ⟨h₂, .inr ⟨h₃, .inl ⟨_, h, rfl⟩⟩⟩⟩
    | undeclaredSymbol h₁ h₂ h₃ h₄ hv hright hbefore hsymbol =>
      exact .inr ⟨h₁, .inr ⟨h₂, .inr ⟨h₃, .inr ⟨h₄,
        .inl ⟨_, _, _, _, hv, hright, hbefore, hsymbol, rfl⟩⟩⟩⟩⟩
    | emptyProductionSet h₁ h₂ h₃ h₄ h₅ h =>
      exact .inr ⟨h₁, .inr ⟨h₂, .inr ⟨h₃, .inr ⟨h₄, .inr ⟨h₅, _, h, rfl⟩⟩⟩⟩⟩

/-! ## The described grammar -/

/-- In a valid description the left-hand sides are the variables: each variable has an alternative,
and so an entry. -/
lemma Valid.keys_productions (h : d.Valid) : d.productions.keys = d.nonterminals := by
  refine SortedSet.ext fun v => ⟨h.left v, fun hv => ?_⟩
  obtain ⟨names, hnames⟩ := h.inhabited v hv
  exact mem_keys_of_mem_rightsOf hnames

/-- **Reading a right-hand side.** Its symbols are named like the right-hand side without reserved
names, in the same order. -/
lemma map_name_filterMap_symbol? (d : Description) (names : List Name) :
    (names.filterMap d.symbol?).map Symbol.name = names.filter (· ≠ epsilonName) := by
  induction names with
  | nil => rfl
  | cons name names ih =>
    by_cases hname : name = epsilonName
    · simpa [symbol?, hname] using ih
    · by_cases hvar : name ∈ d.nonterminals
      · simpa [symbol?, hname, hvar, Symbol.name] using ih
      · simpa [symbol?, hname, hvar, Symbol.name] using ih

/-- Reserved names do not matter when a right-hand side is read, as they stand for no symbol. -/
lemma filterMap_symbol?_filter (d : Description) (names : List Name) :
    (names.filter (· ≠ epsilonName)).filterMap d.symbol? = names.filterMap d.symbol? := by
  rw [List.filterMap_filter]
  refine List.filterMap_congr fun name _ => ?_
  by_cases hname : name = epsilonName
  · simp [symbol?, hname]
  · simp [hname]

/-- **The alternatives of an accepted description** are the sequences of declared symbols that are
named like one of its right-hand sides without reserved names. A name is declared as a variable or
as a terminal, and not as both, so that a sequence of names has one reading.

**Proof sketch.** An alternative is read from a right-hand side, so its symbols are declared and
named like it. Conversely, a declared symbol is what its name is read as, so a sequence of them is
read from any right-hand side with these names. -/
lemma Valid.mem_alternatives (h : d.Valid) {v : Name} {right : List Symbol} :
    right ∈ d.toGrammar.alternatives v ↔ (∀ s ∈ right, d.toGrammar.Declares s) ∧
      ∃ names ∈ d.rightsOf v, right.map Symbol.name = names.filter (· ≠ epsilonName) := by
  have hg : d.toGrammar.WellFormed :=
    Grammar.wellFormed_of_ofDescription
      (Grammar.ofDescription_eq_ok.2 ⟨violation?_eq_none_iff_valid.2 h, rfl⟩)
  constructor
  · intro hr
    obtain ⟨names, hnames, rfl⟩ := Grammar.mem_alternatives_toGrammar.1 hr
    exact ⟨hg.declares v _ hr, names, hnames, d.map_name_filterMap_symbol? names⟩
  · rintro ⟨hdeclared, names, hnames, heq⟩
    refine Grammar.mem_alternatives_toGrammar.2 ⟨names, hnames, ?_⟩
    -- a declared symbol is what its name is read as
    have hread : (right.map Symbol.name).filterMap d.symbol? = right := by
      rw [List.filterMap_map]
      exact (List.filterMap_congr fun s hs => hg.symbol?_name (hdeclared s hs)).trans
        List.filterMap_some
    rw [← filterMap_symbol?_filter, ← heq, hread]

end Description

namespace Grammar

/-- **Validation is exact.** A description is accepted exactly if it is valid, and otherwise it is
rejected for the first condition that it violates. The grammar of an accepted description has its
variables, terminals and start symbol, an entry for each variable, and as alternatives of a
variable its right-hand sides without reserved names, where each name stands for the variable or
the terminal that it is declared as.

**Proof sketch.** A description is accepted if no check finds anything, and rejected for what the
first one finds; `Description.violation?_eq_none_iff_valid` and `Description.violation?_eq_some`
say what these are. The alternatives are known from `Description.Valid.mem_alternatives`. -/
theorem ofDescription_exact (d : Description) :
    ((∃ g, ofDescription d = .ok g) ↔ d.Valid) ∧
    (∀ e, ofDescription d = .error e ↔ d.Rejects e) ∧
    ∀ g, ofDescription d = .ok g →
      g.nonterminals = d.nonterminals ∧ g.terminals = d.terminals ∧ g.start = d.start ∧
        g.productions.keys = d.nonterminals ∧
        ∀ v right, right ∈ g.alternatives v ↔ (∀ s ∈ right, g.Declares s) ∧
          ∃ names ∈ d.rightsOf v, right.map Symbol.name = names.filter (· ≠ epsilonName) := by
  refine ⟨?_, fun e => ofDescription_eq_error.trans Description.violation?_eq_some, fun g hg => ?_⟩
  · simp only [ofDescription_eq_ok, Description.violation?_eq_none_iff_valid, exists_and_left,
      exists_eq, and_true]
  · obtain ⟨hviolation, rfl⟩ := ofDescription_eq_ok.1 hg
    have hvalid := Description.violation?_eq_none_iff_valid.1 hviolation
    refine ⟨rfl, rfl, rfl, ?_, fun v right => hvalid.mem_alternatives⟩
    rw [Description.toGrammar, SortedMap.keys_mapValues, hvalid.keys_productions]

/-- Three names may not stand in the right-hand sides of `S`, and `A` has no alternative. What is
reported is the first of these names in the least right-hand side. -/
example : ofDescription
    { nonterminals := SortedSet.ofList ["S", "A"]
      terminals := SortedSet.singleton "a"
      start := "S"
      productions := SortedMap.ofList [("S", SortedSet.ofList [["b"], ["a", "y", "x"]])] } =
      .error (.undeclaredSymbol "S" "y") := by
  rfl

end Grammar

end ChomskyForm
