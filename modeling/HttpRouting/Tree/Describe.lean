import HttpRouting.Text.Quoted
import HttpRouting.Tree.Node

namespace HttpRouting

def Kind.describe : Kind → String
  | .static => "Static"
  | .root => "Root"
  | .param => "Param"
  | .catchAll => "CatchAll"

def describeRecord (name : String) (fields : List (String × String)) : String :=
  let shown := fields.map fun (field, value) => field ++ ": " ++ value
  name ++ " \x7b " ++ ", ".intercalate shown ++ " \x7d"

def describeList (items : List String) : String := "[" ++ ", ".intercalate items ++ "]"

def describeOption : Option String → String
  | some shown => "Some(" ++ shown ++ ")"
  | none => "None"

def describeBool (b : Bool) : String := if b then "true" else "false"

namespace Node

variable {α : Type}

def describeKeys (keys : Bytes) : String :=
  quoted (String.ofList (keys.map fun b => Char.ofNat b.toNat))

def describe (showValue : α → String) : Node α → String
  | ⟨kind, label, keys, hasWild, priority, children, value, route⟩ =>
      describeRecord "Node"
        [("prefix", quoted (asText label)),
          ("node_type", kind.describe),
          ("priority", toString priority),
          ("wild_child", describeBool hasWild),
          ("indices", describeKeys keys),
          ("value", describeOption (value.map showValue)),
          ("full_path", quoted route),
          ("children", describeList (describeAll children))]
where
  describeAll : List (Node α) → List String
    | [] => []
    | c :: cs => describe showValue c :: describeAll cs

end Node

end HttpRouting
