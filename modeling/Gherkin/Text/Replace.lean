import Gherkin.Text.Basic

/-! Replacing every occurrence of one text by another, from left to right and without overlaps. -/

namespace Gherkin.Text

/-- Skips `skip` characters, then replaces each occurrence of `old` in the rest by `new`. -/
def replaceAfter (old new : Text) : Nat → Text → Text
  | _, [] => []
  | skip + 1, _ :: cs => replaceAfter old new skip cs
  | 0, c :: cs =>
    if old.isPrefixOf (c :: cs) then new ++ replaceAfter old new (old.length - 1) cs
    else c :: replaceAfter old new 0 cs

/-- Replaces each occurrence of `old`, which is not empty, by `new`. -/
def replace (t old new : Text) : Text := replaceAfter old new 0 t

@[simp] theorem replace_nil (old new : Text) : replace [] old new = [] := rfl

theorem replaceAfter_eq_drop (old new : Text) (skip : Nat) (t : Text) :
    replaceAfter old new skip t = replace (t.drop skip) old new := by
  induction skip generalizing t with
  | zero => rfl
  | succ n ih => cases t with
    | nil => rfl
    | cons c cs => simpa [replaceAfter] using ih cs

end Gherkin.Text
