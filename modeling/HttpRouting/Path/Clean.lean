namespace HttpRouting.Path

/-- Takes characters off a reversed path, up to and including a slash but at most `room` of them.
The room that is left comes with what is left of the path. -/
def climb : (room : Nat) → List Char → Nat × List Char
  | 0, out => (0, out)
  | _ + 1, [] => (0, [])
  | room + 1, c :: out => if c = '/' then (room, out) else climb room out

def joint : List Char → List Char
  | [] | ['/'] => []
  | _ => ['/']

def append (out name : List Char) : List Char := name.reverse ++ joint out ++ out

/-- Reads a path name by name. `out` is the cleaned path so far, reversed, and `..` may take back its
last `room` characters. -/
def scan (rooted : Bool) (room : Nat) (out : List Char) : List Char → List Char
  | [] => out
  | c :: cs =>
      let name := c :: cs.takeWhile (· ≠ '/')
      let rest := cs.dropWhile (· ≠ '/')
      if c = '/' then scan rooted room out cs
      else if name = ['.'] then scan rooted room out rest
      else if name = ['.', '.'] then
        if 0 < room then scan rooted (climb room out).1 (climb room out).2 rest
        else if rooted then scan rooted 0 out rest
        else scan rooted 0 (append out name) rest
      else scan rooted (room + name.length + (joint out).length) (append out name) rest
termination_by cs => cs.length
decreasing_by
  · exact Nat.lt_succ_self _
  all_goals exact Nat.lt_succ_of_le (List.dropWhile_sublist _).length_le

def clean (path : String) : String :=
  let out := match path.toList with
    | '/' :: cs => scan true 0 ['/'] cs
    | cs => scan false 0 [] cs
  if out.isEmpty then "." else String.ofList out.reverse

def endsWithSlash (cs : List Char) : Bool := cs.getLast? == some '/'

def dropLeadingSlash : List Char → List Char
  | '/' :: cs => cs
  | cs => cs

/-- The cleaned path of `relative` below `base`. A trailing slash of `relative` survives unless the
result is the root, and an empty side leaves the other as it is. -/
def join (base relative : String) : String :=
  if relative.isEmpty then base
  else if base.isEmpty then relative
  else
    let joint := if endsWithSlash base.toList then [] else ['/']
    let cleaned := clean
      (String.ofList (base.toList ++ joint ++ dropLeadingSlash relative.toList))
    if endsWithSlash relative.toList && cleaned ≠ "/" then cleaned ++ "/" else cleaned

def toggleSlash (path : String) : String :=
  if endsWithSlash path.toList then String.ofList path.toList.dropLast else path ++ "/"

end HttpRouting.Path
