import HttpRouting.Demo.Tour

def main : IO UInt32 := do
  match HttpRouting.Demo.tour with
  | .ok text =>
      IO.print text
      return 0
  | .error message =>
      IO.eprintln ("Error: " ++ message)
      return 1
