/-
  rpm's boolean dependencies: the tree, the parser and the printer
  (`tools/depgraph.py`, "rpm's boolean dependency grammar").

  The parser recurses on ever shorter texts; `parseBody` counts its recursion depth in
  fuel, and `parseBoolean` hands it one unit for each character, which the depth cannot
  reach. `none` is the source's `None`: the parser does not understand the text.
-/
import BuckosDistro.Depgraph.Capability

namespace BuckosDistro.Depgraph

open BuckosDistro.Lib

/-! ## The tree -/

/-- A node of a parsed boolean dependency. The third operand of `if` and `unless` is the
    optional `else` tail. -/
inductive Node where
  | cap (text : String)
  | and (children : List Node)
  | or (children : List Node)
  | with (children : List Node)
  | without (left right : Node)
  | if (then_ cond : Node) (else_ : Option Node)
  | unless (then_ cond : Node) (else_ : Option Node)
deriving Repr

/-! ## The parser -/

/-- The operator words. -/
inductive BoolOp where
  | without | unless | with | else | and | or | if
deriving DecidableEq, Repr

namespace BoolOp

def text : BoolOp → String
  | .without => "without" | .unless => "unless" | .with => "with" | .else => "else"
  | .and => "and" | .or => "or" | .if => "if"

/-- `_BOOL_OPS`, longest first. -/
def all : List BoolOp := [.without, .unless, .with, .else, .and, .or, .if]

/-- The operator between its two spaces. -/
def token (op : BoolOp) : List Char := (" " ++ op.text ++ " ").toList

/-- The first operator whose token the text starts with. -/
def at? (text : List Char) : Option BoolOp := all.find? fun op => op.token.isPrefixOf text

end BoolOp

/-- The scan of `_is_single_group`: does the depth first return to zero at the last
    character? -/
def closesAtEnd : Int → List Char → Bool
  | _, [] => false
  | depth, c :: cs =>
    if c = '(' then closesAtEnd (depth + 1) cs
    else if c = ')' then
      if depth - 1 = 0 then cs.isEmpty else closesAtEnd (depth - 1) cs
    else closesAtEnd depth cs

/-- `_is_single_group`: are the outer parentheses the text's own, matched at the end? -/
def isSingleGroup (text : List Char) : Bool :=
  text.head? == some '(' && text.getLast? == some ')' && closesAtEnd 0 text

/-- `text[1:-1].strip()` -/
def inner (text : List Char) : List Char := PyText.strip text.tail.dropLast

/-- The scan of `_top_level_ops`. `skip` counts the characters of a token already
    recorded. -/
def topLevelOpsFrom : List Char → Nat → Int → Nat → List (Nat × BoolOp)
  | [], _, _, _ => []
  | _ :: cs, index, depth, skip + 1 => topLevelOpsFrom cs (index + 1) depth skip
  | c :: cs, index, depth, 0 =>
    if c = '(' then topLevelOpsFrom cs (index + 1) (depth + 1) 0
    else if c = ')' then topLevelOpsFrom cs (index + 1) (depth - 1) 0
    else if depth = 0 ∧ c = ' ' then
      match BoolOp.at? (c :: cs) with
      | some op => (index, op) :: topLevelOpsFrom cs (index + 1) depth (op.token.length - 1)
      | none => topLevelOpsFrom cs (index + 1) depth 0
    else topLevelOpsFrom cs (index + 1) depth 0

/-- `_top_level_ops`: every operator token at depth zero, with its index. -/
def topLevelOps (text : List Char) : List (Nat × BoolOp) := topLevelOpsFrom text 0 0 0

/-- The scan of `_split_top`; `part` is the operand being read, reversed. -/
def splitTopFrom (token : List Char) :
    List Char → Int → Nat → List Char → List (List Char)
  | [], _, _, part => [part.reverse]
  | _ :: cs, depth, skip + 1, part => splitTopFrom token cs depth skip part
  | c :: cs, depth, 0, part =>
    if c = '(' then splitTopFrom token cs (depth + 1) 0 (c :: part)
    else if c = ')' then splitTopFrom token cs (depth - 1) 0 (c :: part)
    else if depth = 0 ∧ token.isPrefixOf (c :: cs) then
      part.reverse :: splitTopFrom token cs depth (token.length - 1) []
    else splitTopFrom token cs depth 0 (c :: part)

/-- `_split_top`: the operands of one operator at depth zero, stripped. -/
def splitTop (text : List Char) (op : BoolOp) : List (List Char) :=
  (splitTopFrom op.token text 0 0 []).map PyText.strip

/-- The node a chain of one operator builds. -/
def chain (op : BoolOp) (children : List Node) : Option Node :=
  match op, children with
  | .and, cs => some (.and cs)
  | .or, cs => some (.or cs)
  | .with, cs => some (.with cs)
  | .without, [left, right] => some (.without left right)
  | _, _ => none

/-- `_parse_body` -/
def parseBody : Nat → List Char → Option Node
  | 0, _ => none
  | fuel + 1, text =>
    let text := PyText.strip text
    if text.isEmpty then none
    else if isSingleGroup text then
      let inner := inner text
      if (topLevelOps inner).isEmpty then some (.cap (String.ofList inner))
      else parseBody fuel inner
    else
      let ops := topLevelOps text
      match ops with
      | [] => some (.cap (String.ofList text))
      | (first, head) :: rest =>
        if head = .if ∨ head = .unless then
          -- The only operators with a third operand, so the only ones beside another word.
          let build := if head = .if then Node.if else Node.unless
          match rest with
          | [] => do
            let then_ ← parseBody fuel (text.take first)
            let cond ← parseBody fuel (text.drop (first + head.token.length))
            some (build then_ cond none)
          | [(second, .else)] => do
            let then_ ← parseBody fuel (text.take first)
            let cond ← parseBody fuel
              ((text.take second).drop (first + head.token.length))
            let other ← parseBody fuel (text.drop (second + BoolOp.else.token.length))
            some (build then_ cond (some other))
          | _ => none
        else if rest.any fun op => op.2 != head then none
        else do
          let children ← (splitTop text head).mapM (parseBody fuel)
          chain head children

/-- `parse_boolean` -/
def parseBoolean (capability : String) : Option Node :=
  let text := PyText.strip capability.toList
  if !isRichDep (String.ofList text) || !isSingleGroup text then none
  else parseBody (text.length + 1) (inner text)

/-! ## The printer -/

mutual

/-- `unparse_boolean` -/
def unparseBoolean : Node → String
  | .cap text => text
  | .and children => "(" ++ PyText.join " and " (unparseEach children) ++ ")"
  | .or children => "(" ++ PyText.join " or " (unparseEach children) ++ ")"
  | .with children => "(" ++ PyText.join " with " (unparseEach children) ++ ")"
  | .without left right =>
    "(" ++ unparseBoolean left ++ " without " ++ unparseBoolean right ++ ")"
  | .if then_ cond none => "(" ++ unparseBoolean then_ ++ " if " ++ unparseBoolean cond ++ ")"
  | .if then_ cond (some other) =>
    "(" ++ unparseBoolean then_ ++ " if " ++ unparseBoolean cond ++ " else " ++
      unparseBoolean other ++ ")"
  | .unless then_ cond none =>
    "(" ++ unparseBoolean then_ ++ " unless " ++ unparseBoolean cond ++ ")"
  | .unless then_ cond (some other) =>
    "(" ++ unparseBoolean then_ ++ " unless " ++ unparseBoolean cond ++ " else " ++
      unparseBoolean other ++ ")"

def unparseEach : List Node → List String
  | [] => []
  | child :: children => unparseBoolean child :: unparseEach children

end

/-! ## Leaves -/

mutual

/-- `_leaf_caps`: the bounds of a chain of `with`, constraints intact. -/
def leafCaps : Node → Option (List String)
  | .cap text => some [text]
  | .with children => leafCapsEach children
  | _ => none

def leafCapsEach : List Node → Option (List String)
  | [] => some []
  | child :: children =>
    match leafCaps child, leafCapsEach children with
    | some caps, some rest => some (caps ++ rest)
    | _, _ => none

end

mutual

/-- `_leaf_names`: every bare capability name the node mentions, `none` when it is not
    built from leaves by `and`, `or` and `with` alone. -/
def leafNames : Node → Option (List String)
  | .cap text => some [stripCapabilityVersion text]
  | .and children => leafNamesEach children
  | .or children => leafNamesEach children
  | .with children => leafNamesEach children
  | _ => none

def leafNamesEach : List Node → Option (List String)
  | [] => some []
  | child :: children =>
    match leafNames child, leafNamesEach children with
    | some names, some rest => some (names ++ rest)
    | _, _ => none

end

/-- `parse_or_dep(capability)`, as far as its callers test it: is the text a flat choice
    between plain capabilities? -/
def parseOrDep (capability : String) : Option (List String) :=
  match parseBoolean capability with
  | some (.or children) =>
    children.mapM fun child =>
      match child with
      | .cap text => some (stripCapabilityVersion text)
      | _ => none
  | _ => none

end BuckosDistro.Depgraph
