import Mathlib.Logic.Relation

/-!
# Labelled machines and their guarded runs

A `Machine` is a set of initial states and a labelled step relation.  The runs
we reason about are *guarded*: `Reach ok` collects the states that are reached
by runs each of whose steps meets the condition `ok`, which is looked up in the
state before the step.  The unguarded runs are the special case `Reachable`.

The one rule every development over a machine uses is `Reach.invariant`: what
holds initially and survives each guarded step holds in every state reached.
-/

universe u v

namespace Virtuoso.Lib

/-- A labelled transition system with a set of initial states. -/
structure Machine (State : Type u) (Label : Type v) where
  /-- The states a run may start from. -/
  Init : State → Prop
  /-- `Step s a s'`: performing `a` in `s` may lead to `s'`. -/
  Step : State → Label → State → Prop

namespace Machine

variable {State : Type u} {Label : Type v} {M : Machine State Label}

/-- The states reached by runs all of whose steps meet `ok`. -/
inductive Reach (M : Machine State Label) (ok : State → Label → Prop) : State → Prop
  | init {s : State} : M.Init s → Reach M ok s
  | step {s s' : State} {a : Label} : Reach M ok s → ok s a → M.Step s a s' → Reach M ok s'

/-- The states reached by arbitrary runs. -/
def Reachable (M : Machine State Label) : State → Prop := Reach M fun _ _ => True

variable {ok : State → Label → Prop}

/-- A predicate that holds initially and is preserved by every guarded step
holds in every state a guarded run reaches. -/
theorem Reach.invariant {I : State → Prop} (hinit : ∀ s, M.Init s → I s)
    (hstep : ∀ s a s', I s → ok s a → M.Step s a s' → I s') {s : State} (h : M.Reach ok s) :
    I s := by
  induction h with
  | init h => exact hinit _ h
  | step _ hok hs ih => exact hstep _ _ _ ih hok hs

end Machine

end Virtuoso.Lib
