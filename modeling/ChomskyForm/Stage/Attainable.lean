import ChomskyForm.Grammar.Description
import ChomskyForm.Stage.NormalForm

set_option autoImplicit false
set_option relaxedAutoImplicit false

/-!
# Attainable grammars

The grammars that a user can get to: those of accepted descriptions, and what any stages in any
order make of them. A property that validation establishes and every stage keeps holds for all
of them.

## Main definitions

* `ChomskyForm.Grammar.Attainable`: attainable grammars.

## Main results

* `ChomskyForm.Grammar.Attainable.run`: stages lead from attainable grammars to attainable ones.
* `ChomskyForm.Grammar.Attainable.induction`: the principle of proof for attainable grammars.
-/

namespace ChomskyForm

namespace Grammar

/-- No stage changes nothing. -/
@[simp] theorem run_nil (g : Grammar) : g.run [] = g := rfl

/-- Stages are applied one after the other, so a list of stages may be cut in two anywhere. -/
theorem run_append (g : Grammar) (stages stages' : List Stage) :
    g.run (stages ++ stages') = (g.run stages).run stages' := by
  simp [run]

/-- **Attainable grammars**: what a sequence of stages makes of an accepted description. These are
all grammars that the command line can get to; main results are stated for them and not only for
well-formed grammars. -/
def Attainable (g : Grammar) : Prop :=
  ∃ d g₀ stages, ofDescription d = .ok g₀ ∧ g = g₀.run stages

/-- The grammar of an accepted description is attainable, by no stage at all. -/
theorem attainable_of_ofDescription {d : Description} {g : Grammar} (h : ofDescription d = .ok g) :
    g.Attainable :=
  ⟨d, g, [], h, rfl⟩

/-- Stages lead from attainable grammars to attainable ones, since sequences of stages can be put
one after the other. -/
theorem Attainable.run {g : Grammar} (h : g.Attainable) (stages : List Stage) :
    (g.run stages).Attainable := by
  obtain ⟨d, g₀, before, hd, rfl⟩ := h
  exact ⟨d, g₀, before ++ stages, hd, (run_append g₀ before stages).symm⟩

/-- **Induction.** What holds for the grammars of accepted descriptions, and is kept by every
stage, holds for all attainable grammars. -/
theorem Attainable.induction {p : Grammar → Prop}
    (accepted : ∀ d g, ofDescription d = .ok g → p g)
    (kept : ∀ g (stage : Stage), p g → p (stage.apply g)) {g : Grammar} (h : g.Attainable) :
    p g := by
  obtain ⟨d, g₀, stages, hd, rfl⟩ := h
  have h₀ := accepted d g₀ hd
  clear hd
  induction stages generalizing g₀ with
  | nil => exact h₀
  | cons stage stages ih => exact ih (stage.apply g₀) (kept g₀ stage h₀)

end Grammar

end ChomskyForm
