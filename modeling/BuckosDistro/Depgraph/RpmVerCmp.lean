/-
  rpm's version comparison (`tools/rpmvercmp.py`).

  `rpmvercmp` walks both strings with two indices; here the walk keeps the two
  remaining suffixes instead, so `i >= len_one` is "the left suffix is empty".
  The loop body consumes at least one character of a non-empty side on every trip,
  and the fuel (both lengths, plus one) is never what ends it.
-/
import BuckosDistro.Lib.PyInt

namespace BuckosDistro.Depgraph

open BuckosDistro.Lib

/-! ## Characters -/

/-- `_is_digit` -/
def isDigit (char : Char) : Bool := '0' ≤ char && char ≤ '9'

/-- `_is_alpha` -/
def isAlpha (char : Char) : Bool := ('a' ≤ char && char ≤ 'z') || ('A' ≤ char && char ≤ 'Z')

/-- `_is_alnum` -/
def isAlnum (char : Char) : Bool := isDigit char || isAlpha char

/-- What the walk skips: neither alphanumeric nor one of the operators `~` and `^`. -/
def isSeparator (char : Char) : Bool := !isAlnum char && char != '~' && char != '^'

/-! ## Segments -/

/-- Two segments of one kind, when the right side has one. Digit runs lose their leading
    zeros and are then compared by length before content. -/
def compareSegments (numeric : Bool) (one two : List Char) : Int :=
  let one := if numeric then one.dropWhile (· == '0') else one
  let two := if numeric then two.dropWhile (· == '0') else two
  if numeric && one.length != two.length then
    if one.length > two.length then 1 else -1
  else if one != two then
    if one > two then 1 else -1
  else 0

/-- What the comparison returns once the loop has ended. -/
def exhausted (one two : List Char) : Int :=
  if one.isEmpty && two.isEmpty then 0 else if one.isEmpty then -1 else 1

/-- The `while` of `rpmvercmp`, on what is left of both strings. -/
def rpmvercmpLoop : Nat → List Char → List Char → Int
  | 0, one, two => exhausted one two
  | fuel + 1, one, two =>
    if one.isEmpty && two.isEmpty then exhausted one two
    else
      let one := one.dropWhile isSeparator
      let two := two.dropWhile isSeparator
      let oneTilde := one.head? == some '~'
      let twoTilde := two.head? == some '~'
      if oneTilde || twoTilde then
        if !oneTilde then 1
        else if !twoTilde then -1
        else rpmvercmpLoop fuel one.tail two.tail
      else
        let oneCaret := one.head? == some '^'
        let twoCaret := two.head? == some '^'
        if oneCaret || twoCaret then
          if one.isEmpty then -1
          else if two.isEmpty then 1
          else if !oneCaret then 1
          else if !twoCaret then -1
          else rpmvercmpLoop fuel one.tail two.tail
        else if one.isEmpty || two.isEmpty then exhausted one two
        else
          -- The left side alone decides which kind of run is taken on both.
          let numeric := (one.head?.map isDigit).getD false
          let inRun := if numeric then isDigit else isAlpha
          let segOne := one.takeWhile inRun
          let segTwo := two.takeWhile inRun
          if segTwo.isEmpty then if numeric then 1 else -1
          else
            let verdict := compareSegments numeric segOne segTwo
            if verdict != 0 then verdict
            else rpmvercmpLoop fuel (one.dropWhile inRun) (two.dropWhile inRun)

/-- `rpmvercmp(one, two)`: -1, 0 or 1. -/
def rpmvercmp (one two : String) : Int :=
  if one = two then 0
  else
    let one := one.toList
    let two := two.toList
    rpmvercmpLoop (one.length + two.length + 1) one two

/-! ## Whole EVRs -/

/-- An (epoch, version, release) triple; `none` is a component the source does not state. -/
structure Evr where
  epoch : Option String
  version : Option String
  release : Option String
deriving DecidableEq, Repr

/-- `_epoch_int` -/
def epochInt (epoch : Option String) : Int :=
  match epoch with
  | none => 0
  | some text =>
    if text = "" ∨ text = "(none)" then 0 else (PyInt.int? text.toList).getD 0

/-- `compare_evr(one, two)`: epoch numerically, then version, then release. -/
def compareEvr (one two : Evr) : Int :=
  let epochOne := epochInt one.epoch
  let epochTwo := epochInt two.epoch
  if epochOne ≠ epochTwo then
    if epochOne > epochTwo then 1 else -1
  else
    let result := rpmvercmp (one.version.getD "") (two.version.getD "")
    if result ≠ 0 then result
    else rpmvercmp (one.release.getD "") (two.release.getD "")

end BuckosDistro.Depgraph
