/-!
Padding of a text to a width, counted in characters. A text that is already wider stays as it is.
-/
namespace CallChain.Text

inductive Align where
  | left
  | right
  | center
  deriving DecidableEq

/-- Blanks on both sides; a centred text has the odd blank on its right. -/
def pad (align : Align) (width : Nat) (text : String) : String :=
  let room := width - text.length
  let before := match align with
    | .left => 0
    | .right => room
    | .center => room / 2
  String.ofList (List.replicate before ' ') ++ text ++ String.ofList (List.replicate (room - before) ' ')

end CallChain.Text
