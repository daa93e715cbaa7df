/-!
Texts cut and filled up to a width, counted in characters.
-/

namespace FlowLoops.Text

inductive Alignment where
  | left | right | center
deriving DecidableEq, Repr

/-- Cuts a text to a precision, if there is one, and fills it up with blanks to a width. In the
center, an odd blank goes to the right. -/
def pad (text : List Char) (alignment : Alignment) (width : Nat) (precision : Option Nat) :
    List Char :=
  let text := precision.elim text text.take
  let missing := width - text.length
  let before := match alignment with
    | .left => 0
    | .right => missing
    | .center => missing / 2
  List.replicate before ' ' ++ text ++ List.replicate (missing - before) ' '

end FlowLoops.Text
