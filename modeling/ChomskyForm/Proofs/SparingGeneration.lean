import ChomskyForm.Proofs.Idempotence

set_option autoImplicit false
set_option relaxedAutoImplicit false

/-!
# What the elimination of unit alternatives keeps

The elimination does not hand on the empty alternative of the start symbol. A word is lost when all
its derivations need this alternative for a start symbol that makes up an alternative of another
variable. The words that are kept are those that can be generated sparingly, that is, without
erasing a start symbol that stands alone. All words of all variables are kept if the start symbol
has no empty alternative or no other variable leads to it by unit alternatives.

## Main definitions

* `ChomskyForm.Grammar.Spares`: sparing generation.
* `ChomskyForm.Grammar.Unshared`: grammars whose start symbol is not shared.
* `ChomskyForm.Grammar.returning`, `ChomskyForm.Grammar.circling`: two small descriptions.

## Main results

* `ChomskyForm.Grammar.generates_eliminateUnits_iff`: after the elimination exactly the words are
  generated that were generated sparingly.
* `ChomskyForm.Grammar.Unshared.generates_eliminateUnits`: if the start symbol is not shared, every
  variable generates the same words as before.
* `ChomskyForm.Grammar.eliminateUnits_language`: what the start symbol derives after the
  elimination.
* `ChomskyForm.Grammar.eliminateUnits_loses_returning`: a word that is lost.
* `ChomskyForm.Grammar.Attainable.eliminateUnits_exact`: when nothing is lost.
-/

namespace ChomskyForm

namespace Grammar

open Relation

variable {g : Grammar}

/-! ## Sparing generation -/

/-- **Sparing generation.** The words that a sequence of symbols generates when the empty
alternative of the start symbol must not be used for a start symbol that makes up an alternative on
its own. Whether the sequence itself is such an alternative, a single variable, is told by `alone`.
The rules are those of generation, with one condition more on the alternative of a variable. -/
inductive Spares (g : Grammar) : Bool → List Symbol → List Name → Prop where
  /-- Nothing generates the empty word. -/
  | nil {alone : Bool} : Spares g alone [] []
  /-- A terminal generates itself. -/
  | terminal {alone : Bool} {rest : List Symbol} {w : List Name} (a : Name)
      (h : Spares g alone rest w) : Spares g alone (.terminal a :: rest) (a :: w)
  /-- The mark of the empty word generates nothing. -/
  | epsilon {alone : Bool} {rest : List Symbol} {w : List Name} (h : Spares g alone rest w) :
      Spares g alone (.epsilon :: rest) w
  /-- A variable generates what one of its alternatives does, but an empty one does not count
  for a start symbol that stands alone. -/
  | nonterminal {alone : Bool} {v : Name} {right rest : List Symbol} {u w : List Name}
      (hr : right ∈ g.alternatives v) (hspared : alone = true → v = g.start → right ≠ [])
      (hu : Spares g (Symbol.unit? right).isSome right u) (hw : Spares g alone rest w) :
      Spares g alone (.nonterminal v :: rest) (u ++ w)

/-- What is generated sparingly is generated, by the same rules without the condition. -/
lemma Spares.generates {alone : Bool} {form : List Symbol} {w : List Name}
    (h : g.Spares alone form w) : g.Generates form w := by
  induction h with
  | nil => exact .nil
  | terminal a _ ih => exact .terminal a ih
  | epsilon _ ih => exact .epsilon ih
  | nonterminal hr _ _ _ ihu ihw => exact .nonterminal hr ihu ihw

/-- A variable generates sparingly what its alternatives do, less the empty one for a start symbol
that stands alone. -/
lemma spares_nonterminal {alone : Bool} {v : Name} {w : List Name} :
    g.Spares alone [.nonterminal v] w ↔
      ∃ right ∈ g.alternatives v, (alone = true → v = g.start → right ≠ []) ∧
        g.Spares (Symbol.unit? right).isSome right w := by
  constructor
  · intro h
    cases h with
    | nonterminal hr hspared hu hw =>
      cases hw
      rw [List.append_nil]
      exact ⟨_, hr, hspared, hu⟩
  · rintro ⟨right, hr, hspared, hw⟩
    simpa using Spares.nonterminal hr hspared hw .nil

/-- A variable can be put in front of a sequence, if it is spared to the same extent as the
sequence. -/
lemma Spares.cons {alone : Bool} {v : Name} {rest : List Symbol} {u w : List Name}
    (hu : g.Spares alone [.nonterminal v] u) (hw : g.Spares alone rest w) :
    g.Spares alone (.nonterminal v :: rest) (u ++ w) := by
  obtain ⟨right, hr, hspared, hu⟩ := spares_nonterminal.1 hu
  exact .nonterminal hr hspared hu hw

/-! ## The generated words -/

/-- What unit steps lead to is generated sparingly before them, also by a variable that stands
alone, unless it is the empty alternative of the start symbol. By induction on the steps from their
beginning: the variables in between stand alone, but their alternatives are not empty. -/
lemma spares_of_unitSteps {v u : Name} (h : ReflTransGen g.UnitStep v u) {right : List Symbol}
    {w : List Name} (hr : right ∈ g.alternatives u) (hspared : u = g.start → right ≠ [])
    (hw : g.Spares (Symbol.unit? right).isSome right w) (alone : Bool) :
    g.Spares alone [.nonterminal v] w := by
  induction h using ReflTransGen.head_induction_on generalizing alone with
  | refl => exact spares_nonterminal.2 ⟨right, hr, fun _ => hspared, hw⟩
  | head step _ ih =>
    exact spares_nonterminal.2 ⟨_, step, fun _ _ => List.cons_ne_nil _ _, ih true⟩

/-- **Soundness.** What is generated after the elimination was generated sparingly.

**Proof sketch.** An alternative that a variable has taken over stands at the end of a chain of unit
steps. If it is the empty alternative of the start symbol, the variable is the start symbol itself
and needs no chain. -/
theorem spares_of_eliminateUnits {form : List Symbol} {w : List Name}
    (h : g.eliminateUnits.Generates form w) : g.Spares false form w := by
  induction h with
  | nil => exact .nil
  | terminal a _ ih => exact .terminal a ih
  | epsilon _ ih => exact .epsilon ih
  | @nonterminal v right rest u w hr _ _ ihu ihw =>
    obtain ⟨-, x, hpath, hr, hinherits⟩ := mem_alternatives_eliminateUnits.1 hr
    obtain ⟨hunit, hkept⟩ := inherits_iff.1 hinherits
    have hu : g.Spares (Symbol.unit? right).isSome right u := by
      rw [unit?_eq_none.2 hunit]
      exact ihu
    refine Spares.cons ?_ ihw
    by_cases hspared : x = g.start → right ≠ []
    · exact spares_of_unitSteps hpath hr hspared hu false
    · obtain ⟨hx, hnil⟩ := Classical.not_imp.1 hspared
      have hv : v = g.start := (hkept.resolve_left hnil).resolve_right (· hx)
      subst hv
      subst hx
      exact spares_nonterminal.2 ⟨right, hr, by simp, hu⟩

/-- What unit steps lead away from is a variable, since it has an alternative, or is the variable
that they lead to. -/
lemma mem_nonterminals_of_unitSteps (hg : g.WellFormed) {v u : Name}
    (h : ReflTransGen g.UnitStep v u) (hu : u ∈ g.nonterminals) : v ∈ g.nonterminals := by
  rcases h.cases_head with rfl | ⟨x, step, -⟩
  · exact hu
  · exact hg.mem_nonterminals step

/-- **Completeness.** What is generated sparingly is generated after the elimination. Where a
variable at the front stands alone, any variable may take its place from which unit steps lead to
it.

**Proof sketch.** Induction on sparing generation. Of a chain of unit steps only the last
alternative counts, and all variables of the chain take it over. -/
theorem Spares.generates_eliminateUnits (hg : g.WellFormed) {alone : Bool} {form : List Symbol}
    {w : List Name} (h : g.Spares alone form w) :
    g.eliminateUnits.Generates form w ∧
      (alone = true → ∀ v rest, form = .nonterminal v :: rest → ∀ x, ReflTransGen g.UnitStep x v →
        g.eliminateUnits.Generates (.nonterminal x :: rest) w) := by
  induction h with
  | nil => exact ⟨.nil, by simp⟩
  | terminal a _ ih => exact ⟨.terminal a ih.1, by simp⟩
  | epsilon _ ih => exact ⟨.epsilon ih.1, by simp⟩
  | @nonterminal alone v right rest u w hr hspared _ _ ihu ihw =>
    -- the alternative is taken over along a chain, or at least by the variable itself
    have htaken : ∀ x, ReflTransGen g.UnitStep x v → x = v ∨ alone = true →
        g.eliminateUnits.Generates [.nonterminal x] u := by
      intro x hpath hx
      by_cases hunit : ∃ y, right = [.nonterminal y]
      · obtain ⟨y, rfl⟩ := hunit
        exact ihu.2 rfl y [] rfl x (hpath.tail hr)
      · have hkept : right ≠ [] ∨ x = g.start ∨ v ≠ g.start := by
          by_cases hv : v = g.start
          · rcases hx with rfl | halone
            · exact .inr (.inl hv)
            · exact .inl (hspared halone hv)
          · exact .inr (.inr hv)
        have hxmem : x ∈ g.nonterminals :=
          mem_nonterminals_of_unitSteps hg hpath (hg.mem_nonterminals hr)
        have hinherits := inherits_iff.2 ⟨fun y hy => hunit ⟨y, hy⟩, hkept⟩
        exact generates_nonterminal.2
          ⟨right, mem_alternatives_eliminateUnits.2 ⟨hxmem, v, hpath, hr, hinherits⟩, ihu.1⟩
    refine ⟨generates_cons.2 ⟨u, w, rfl, htaken v .refl (.inl rfl), ihw.1⟩, ?_⟩
    rintro halone _ _ ⟨⟩ x hpath
    exact generates_cons.2 ⟨u, w, rfl, htaken x hpath (.inr halone), ihw.1⟩

/-- **The words after the elimination** are exactly those that were generated sparingly, from any
sequence of symbols. -/
theorem generates_eliminateUnits_iff (hg : g.WellFormed) {form : List Symbol} {w : List Name} :
    g.eliminateUnits.Generates form w ↔ g.Spares false form w :=
  ⟨spares_of_eliminateUnits, fun h => (h.generates_eliminateUnits hg).1⟩

/-! ## Start symbols that are not shared -/

/-- **Grammars whose start symbol is not shared**: it has no empty alternative, or it is paired
with no other variable by unit alternatives. So there is nothing that the elimination would have to
hand on and does not. -/
def Unshared (g : Grammar) : Prop :=
  [] ∉ g.alternatives g.start ∨
    ∀ v reached, g.unitPairs.get? v = some reached → g.start ∈ reached → v = g.start

/-- If the start symbol is not shared and has an empty alternative, it is an alternative of no other
variable. -/
lemma Unshared.eq_start (h : g.Unshared) (hg : g.WellFormed) (hnil : [] ∈ g.alternatives g.start)
    {v : Name} (step : g.UnitStep v g.start) : v = g.start :=
  h.resolve_left (fun hno => hno hnil) v _ (mem_unitPairs.2 ⟨hg.mem_nonterminals step, rfl⟩)
    (mem_reachableFrom_unitEdges.2 (.single step))

/-- The start symbol is not shared if it is a unit alternative of itself only. This can be checked
rule by rule, without looking for chains. -/
lemma unshared_of_rules (h : ∀ r ∈ g.rules, r.right = [.nonterminal g.start] → r.left = g.start) :
    g.Unshared := by
  refine .inr fun v reached hpairs hmem => ?_
  obtain ⟨-, rfl⟩ := mem_unitPairs.1 hpairs
  have hpath := mem_reachableFrom_unitEdges.1 hmem
  clear hpairs hmem
  induction hpath using ReflTransGen.head_induction_on with
  | refl => rfl
  | @head v x step _ ih =>
    subst ih
    exact h ⟨v, _⟩ (mem_rules.2 step) rfl

/-- **If the start symbol is not shared**, all words are generated sparingly, also by a variable
that stands alone, unless it is a start symbol with an empty alternative.

**Proof sketch.** Induction on generation. A unit alternative that consists of a start symbol with
an empty alternative belongs to the start symbol, so it can be left out. -/
theorem Unshared.spares (h : g.Unshared) (hg : g.WellFormed) {form : List Symbol} {w : List Name}
    (hgen : g.Generates form w) :
    g.Spares false form w ∧
      ∀ v, form = [.nonterminal v] → (v = g.start → [] ∉ g.alternatives v) →
        g.Spares true form w := by
  induction hgen with
  | nil => exact ⟨.nil, by simp⟩
  | terminal a _ ih => exact ⟨.terminal a ih.1, by simp⟩
  | epsilon _ ih => exact ⟨.epsilon ih.1, by simp⟩
  | @nonterminal v right rest u w hr _ hw ihu ihw =>
    have hfirst : ∀ alone : Bool, (alone = true → v = g.start → [] ∉ g.alternatives v) →
        g.Spares alone [.nonterminal v] u := by
      intro alone halone
      have hspared : alone = true → v = g.start → right ≠ [] := by
        rintro ha hv rfl
        exact halone ha hv hr
      by_cases hunit : ∃ x, right = [.nonterminal x]
      · obtain ⟨x, rfl⟩ := hunit
        by_cases hx : x = g.start → [] ∉ g.alternatives x
        · exact spares_nonterminal.2 ⟨_, hr, hspared, ihu.2 x rfl hx⟩
        · obtain ⟨rfl, hnil⟩ := Classical.not_imp.1 hx
          have hnil := not_not.1 hnil
          obtain rfl : v = g.start := h.eq_start hg hnil hr
          cases alone with
          | false => exact ihu.1
          | true => exact absurd hnil (halone rfl rfl)
      · refine spares_nonterminal.2 ⟨right, hr, hspared, ?_⟩
        rw [unit?_eq_none.2 fun x hx => hunit ⟨x, hx⟩]
        exact ihu.1
    refine ⟨(hfirst false (by simp)).cons ihw.1, ?_⟩
    rintro y hform hy
    obtain ⟨rfl, rfl⟩ : v = y ∧ rest = [] := by simpa using hform
    cases hw
    rw [List.append_nil]
    exact hfirst true fun _ => hy

/-- **If the start symbol is not shared**, every variable generates the same words as before, and
so does every sequence of symbols. -/
theorem Unshared.generates_eliminateUnits (h : g.Unshared) (hg : g.WellFormed) {form : List Symbol}
    {w : List Name} : g.eliminateUnits.Generates form w ↔ g.Generates form w :=
  (generates_eliminateUnits_iff hg).trans ⟨Spares.generates, fun hgen => (h.spares hg hgen).1⟩

/-- **The empty word** is generated sparingly by the start symbol if it is generated at all: by its
own empty alternative, or else there is nothing to be spared. -/
lemma spares_start_nil (hg : g.WellFormed) (hgen : g.Generates [.nonterminal g.start] []) :
    g.Spares false [.nonterminal g.start] [] := by
  by_cases hnil : [] ∈ g.alternatives g.start
  · exact spares_nonterminal.2 ⟨[], hnil, by simp, .nil⟩
  · exact (Unshared.spares (.inl hnil) hg hgen).1

/-! ## Accepted descriptions -/

/-- **What the start symbol derives after the elimination** of unit alternatives from the grammar
of an accepted description: the words that it generated sparingly. These are words that it derived
before, among them the empty word if it derived it, and all of them if the start symbol is not
shared.

**Proof sketch.** Derivations of words are replaced by generation, and the words that are generated
after the elimination are known from `generates_eliminateUnits_iff`. -/
theorem eliminateUnits_language {d : Description} (hd : ofDescription d = .ok g) (w : List Name) :
    (g.eliminateUnits.Derives [.nonterminal g.eliminateUnits.start] (w.map .terminal) ↔
      g.Spares false [.nonterminal g.start] w) ∧
    (g.eliminateUnits.Derives [.nonterminal g.eliminateUnits.start] (w.map .terminal) →
      g.Derives [.nonterminal g.start] (w.map .terminal)) ∧
    (w = [] ∨ g.Unshared →
      (g.eliminateUnits.Derives [.nonterminal g.eliminateUnits.start] (w.map .terminal) ↔
        g.Derives [.nonterminal g.start] (w.map .terminal))) := by
  have hg := wellFormed_of_ofDescription hd
  rw [← (wellFormed_eliminateUnits hg).generates_iff_derives, ← hg.generates_iff_derives]
  refine ⟨generates_eliminateUnits_iff hg, generates_of_eliminateUnits, ?_⟩
  rintro (rfl | hunshared)
  · exact ⟨generates_of_eliminateUnits,
      fun hgen => (generates_eliminateUnits_iff hg).2 (spares_start_nil hg hgen)⟩
  · exact hunshared.generates_eliminateUnits hg

/-- **A start symbol that returns**: the description with the alternatives `S → A b`, `S → ε` and
`A → S`. -/
def returning : Description where
  nonterminals := SortedSet.ofList ["S", "A"]
  terminals := SortedSet.singleton "b"
  start := "S"
  productions := SortedMap.ofList
    [("S", SortedSet.ofList [["A", "b"], ["ε"]]), ("A", SortedSet.singleton ["S"])]

/-- The description of a start symbol that returns is accepted. -/
lemma ofDescription_returning : ofDescription returning = .ok returning.toGrammar := rfl

/-- What is derived from a start symbol that returns: it is shared, and still derives the empty
word. -/
theorem eliminateUnits_language_returning :
    ofDescription returning = .ok returning.toGrammar ∧
      (returning.toGrammar.eliminateUnits.Derives [.nonterminal "S"] [.terminal "b"] ↔
        returning.toGrammar.Spares false [.nonterminal "S"] ["b"]) ∧
      (returning.toGrammar.eliminateUnits.Derives [.nonterminal "S"] [] ↔
        returning.toGrammar.Derives [.nonterminal "S"] []) :=
  ⟨ofDescription_returning, (eliminateUnits_language ofDescription_returning ["b"]).1,
    (eliminateUnits_language ofDescription_returning []).2.2 (.inl rfl)⟩

/-- The alternatives of the start symbol that returns: there are only these two. -/
lemma eq_of_mem_alternatives_returning {right : List Symbol}
    (hr : right ∈ returning.toGrammar.alternatives "S") :
    right = [] ∨ right = [.nonterminal "A", .terminal "b"] := by
  have hall : ∀ right ∈ (returning.toGrammar.alternatives "S").toList,
      right = [] ∨ right = [.nonterminal "A", .terminal "b"] := by decide
  exact hall right hr

/-- Sparing generation never gets past the variable in between, nor past a start symbol that stands
alone. For the variable leads to a start symbol that stands alone, and this one leads back to the
variable unless it is erased. -/
lemma notMem_of_spares_returning {alone : Bool} {form : List Symbol} {w : List Name}
    (h : returning.toGrammar.Spares alone form w) :
    .nonterminal "A" ∉ form ∧ (alone = true → .nonterminal "S" ∉ form) := by
  have hother : ∀ right ∈ (returning.toGrammar.alternatives "A").toList,
      right = [.nonterminal "S"] := by decide
  induction h with
  | nil => simp
  | terminal a _ ih => simpa using ih
  | epsilon _ ih => simpa using ih
  | @nonterminal alone v right rest u w hr hspared _ _ ihu ihw =>
    have hA : v ≠ "A" := by
      rintro rfl
      obtain rfl := hother right hr
      exact ihu.2 rfl List.mem_cons_self
    have hS : alone = true → v ≠ "S" := by
      rintro halone rfl
      rcases eq_of_mem_alternatives_returning hr with rfl | rfl
      · exact hspared halone rfl rfl
      · exact ihu.1 List.mem_cons_self
    refine ⟨?_, fun halone => ?_⟩
    · simpa [hA.symm] using ihw.1
    · simpa [(hS halone).symm] using ihw.2 halone

/-- **A word that is lost.** The start symbol derives the letter by way of its own empty
alternative, which the elimination of unit alternatives does not hand on to the variable in
between.

**Proof sketch.** Before the elimination the derivation is `S → A b → S b → b`. Afterwards the
letter would have to be generated sparingly, and `notMem_of_spares_returning` rules this out. -/
theorem eliminateUnits_loses_returning :
    ofDescription returning = .ok returning.toGrammar ∧
      returning.toGrammar.Derives [.nonterminal "S"] [.terminal "b"] ∧
      ¬ returning.toGrammar.eliminateUnits.Derives [.nonterminal "S"] [.terminal "b"] := by
  have hg := wellFormed_of_ofDescription ofDescription_returning
  have hlong : [.nonterminal "A", .terminal "b"] ∈ returning.toGrammar.alternatives "S" := by decide
  have hunit : [.nonterminal "S"] ∈ returning.toGrammar.alternatives "A" := by decide
  have hempty : [] ∈ returning.toGrammar.alternatives "S" := by decide
  refine ⟨ofDescription_returning, ?_, fun hder => ?_⟩
  · exact .head (.replace [] [] hlong) <| .head (.replace [] [.terminal "b"] hunit) <|
      .head (.replace [] [.terminal "b"] hempty) <| .refl _
  · have hgen := ((wellFormed_eliminateUnits hg).generates_iff_derives (w := ["b"])).2 hder
    obtain ⟨right, hr, -, hspares⟩ :=
      spares_nonterminal.1 ((generates_eliminateUnits_iff hg).1 hgen)
    rcases eq_of_mem_alternatives_returning hr with rfl | rfl
    · cases hspares
    · exact (notMem_of_spares_returning hspares).1 List.mem_cons_self

/-! ## Attainable grammars -/

/-- **When nothing is lost.** The elimination of unit alternatives from an attainable grammar
leaves no alternative that is a single variable and an entry for every variable. If the start
symbol is not shared, every variable derives the same words as before, the empty word included. The
words need the condition; `eliminateUnits_loses_returning` is a case without it. -/
theorem Attainable.eliminateUnits_exact (h : g.Attainable) (hunshared : g.Unshared) :
    (∀ v u, [.nonterminal u] ∉ g.eliminateUnits.alternatives v) ∧
    g.eliminateUnits.productions.keys = g.eliminateUnits.nonterminals ∧
    ∀ (v : Name) (w : List Name),
      g.eliminateUnits.Derives [.nonterminal v] (w.map .terminal) ↔
        g.Derives [.nonterminal v] (w.map .terminal) := by
  have hg := h.wellFormed
  refine ⟨not_unitStep_eliminateUnits, keys_eliminateUnits g, fun v w => ?_⟩
  exact (wellFormed_eliminateUnits hg).derives_congr hg (hunshared.generates_eliminateUnits hg)

/-- **Variables in a circle**: the description with the alternatives `S → A b`, `S → A`, `S → ε`,
`A → B`, `B → A`, `B → a` and `B → ε`. -/
def circling : Description where
  nonterminals := SortedSet.ofList ["S", "A", "B"]
  terminals := SortedSet.ofList ["a", "b"]
  start := "S"
  productions := SortedMap.ofList
    [("S", SortedSet.ofList [["A", "b"], ["A"], ["ε"]]), ("A", SortedSet.singleton ["B"]),
      ("B", SortedSet.ofList [["A"], ["a"], ["ε"]])]

/-- The grammar of variables in a circle is attainable, as its description is accepted. -/
lemma attainable_circling : circling.toGrammar.Attainable :=
  attainable_of_ofDescription (show ofDescription circling = .ok circling.toGrammar from rfl)

/-- Its start symbol has an empty alternative and is not shared: no unit alternative leads back. -/
lemma unshared_circling : circling.toGrammar.Unshared := unshared_of_rules (by decide)

/-- Unit alternatives in a circle, with an empty alternative that is handed on along it. -/
theorem eliminateUnits_exact_circling :
    circling.toGrammar.Attainable ∧ circling.toGrammar.Unshared ∧
      (circling.toGrammar.eliminateUnits.Derives [.nonterminal "A"] [] ↔
        circling.toGrammar.Derives [.nonterminal "A"] []) ∧
      (circling.toGrammar.eliminateUnits.Derives [.nonterminal "S"] [.terminal "b"] ↔
        circling.toGrammar.Derives [.nonterminal "S"] [.terminal "b"]) :=
  ⟨attainable_circling, unshared_circling,
    (Attainable.eliminateUnits_exact attainable_circling unshared_circling).2.2 "A" [],
    (Attainable.eliminateUnits_exact attainable_circling unshared_circling).2.2 "S" ["b"]⟩

end Grammar

end ChomskyForm
