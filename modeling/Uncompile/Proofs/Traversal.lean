import Mathlib.Data.List.Forall2

/-!
# Traversals that can fail

Going over a list with a function that can fail gives a result for every argument, or
the first error. Only the results for the arguments of the list matter.
-/

namespace Uncompile

namespace Traversal

variable {α β γ ε : Type} {f g : α → Except ε β} {arguments : List α}

/-- A successful `mapM` pairs every argument with its result. -/
theorem forall₂_of_mapM {results : List β} (hmap : arguments.mapM f = .ok results) :
    List.Forall₂ (fun argument result => f argument = .ok result) arguments results := by
  induction arguments generalizing results with
  | nil =>
      cases hmap
      exact .nil
  | cons argument rest ih =>
      rw [List.mapM_cons] at hmap
      cases hargument : f argument with
      | error e => simp [hargument, bind, Except.bind] at hmap
      | ok result =>
          cases hrest : rest.mapM f with
          | error e => simp [hargument, hrest, bind, Except.bind] at hmap
          | ok others =>
              simp only [hargument, hrest, bind, Except.bind, pure, Except.pure,
                Except.ok.injEq] at hmap
              rw [← hmap]
              exact .cons hargument (ih hrest)

/-- `mapM` succeeds where every argument has a result. -/
theorem exists_mapM (hresults : ∀ argument ∈ arguments, ∃ result, f argument = .ok result) :
    ∃ results, arguments.mapM f = .ok results := by
  induction arguments with
  | nil => exact ⟨[], rfl⟩
  | cons argument rest ih =>
      obtain ⟨⟨result, hresult⟩, hrest⟩ := List.forall_mem_cons.mp hresults
      obtain ⟨results, hresults⟩ := ih hrest
      rw [List.mapM_cons, hresult, hresults]
      exact ⟨result :: results, rfl⟩

/-- `mapM` depends on the results for the arguments it is given. -/
theorem mapM_congr (hsame : ∀ argument ∈ arguments, f argument = g argument) :
    arguments.mapM f = arguments.mapM g := by
  induction arguments with
  | nil => rfl
  | cons argument rest ih =>
      obtain ⟨hfirst, hrest⟩ := List.forall_mem_cons.mp hsame
      rw [List.mapM_cons, List.mapM_cons, hfirst, ih hrest]

end Traversal

end Uncompile
