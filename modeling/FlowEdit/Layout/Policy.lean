import FlowEdit.Text.Quoted

/-!
How the arguments of a form are laid out, by its head word.
-/

namespace FlowEdit

/-- Where a further line of a form starts. With `align` it goes under an earlier argument. With
`special count bodyOffset` the first `count` arguments are set apart and the rest starts
`bodyOffset` columns from the form. -/
inductive Layout
  | align
  | special (count bodyOffset : Int)
  deriving DecidableEq, Repr

/-- What a rule table says of a keyword. -/
inductive Policy
  | layout (l : Layout)
  | aliasOf (keyword : Text)
  | unset
  deriving DecidableEq, Repr

def Policy.render : Policy → String
  | .layout .align => "DefaultAlign()"
  | .layout (.special count bodyOffset) =>
    "FixedSpecial(count=" ++ count.repr ++ ", body_offset=" ++ bodyOffset.repr ++ ")"
  | .aliasOf keyword => "AliasOf(keyword=" ++ String.ofList keyword.quoted ++ ")"
  | .unset => "None"

end FlowEdit
