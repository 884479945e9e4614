import Mathlib.Data.List.Basic

/- Condition prefixes, rules (60)-(63), (95) and (96): the flags `parseCondPrefixes` puts on a
   statement, the parser-wide fields that carry them into nested bodies (src/parser.cpp) and the
   stack that combines them when code is generated (src/irgen.cpp). A statement is its prefix
   lists, its place in the nest and a text that stands for the rest of it. An HIR statement has
   the flags of the statement it comes from (src/hir.cpp). -/
namespace PliCondPrefix

/-- The checks that are on by default, in the order of `procCond_`. -/
inductive Check where
  | size | sub | zdiv | conv | under | overflow | fOver
  deriving DecidableEq

inductive Cond where
  | check (c : Check)
  | stringRange
  deriving DecidableEq

inductive Tok where
  | lparen | rparen | colon | comma
  | word (text : String)
  | other

/-- The prefix fields of a `Stmt`: `no` is noSize, noSub and so on, `chk` is chkSize, chkSub
    and so on. -/
structure Flags where
  no : Check → Bool
  chk : Check → Bool
  strRange : Int

def Flags.set (st : Flags) (state : Int) : Cond → Flags
  | .check c =>
      { st with no := Function.update st.no c (decide (state < 0)),
                chk := Function.update st.chk c (decide (state > 0)) }
  | .stringRange => { st with strRange := state }

def allConds : List Cond :=
  [.check .size, .check .sub, .check .zdiv, .check .conv, .check .under, .stringRange,
    .check .overflow, .check .fOver]

def Flags.setCond (st : Flags) (which : Option Cond) (state : Int) : Flags :=
  match which with
  | some c => st.set state c
  | none => allConds.foldl (fun st c => st.set state c) st

def withoutNo : String → Option String
  | "NOSIZE" => some "SIZE"
  | "NOSUBSCRIPTRANGE" => some "SUBSCRIPTRANGE"
  | "NOZERODIVIDE" => some "ZERODIVIDE"
  | "NOCONVERSION" => some "CONVERSION"
  | "NOSTRINGRANGE" => some "STRINGRANGE"
  | "NOUNDERFLOW" => some "UNDERFLOW"
  | "NOOVERFLOW" => some "OVERFLOW"
  | "NOFIXEDOVERFLOW" => some "FIXEDOVERFLOW"
  | _ => none

def whichCond : String → Option (Option Cond)
  | "SIZE" => some (some (.check .size))
  | "SUBSCRIPTRANGE" => some (some (.check .sub))
  | "ZERODIVIDE" => some (some (.check .zdiv))
  | "CONVERSION" => some (some (.check .conv))
  | "UNDERFLOW" => some (some (.check .under))
  | "STRINGRANGE" => some (some .stringRange)
  | "OVERFLOW" => some (some (.check .overflow))
  | "FIXEDOVERFLOW" => some (some (.check .fOver))
  | "ALL" => some none
  | _ => none

structure Words where
  st : Flags
  checkMode : Bool := false
  noCheckMode : Bool := false
  named : Bool := false
  anyWord : Bool := false
  allHandled : Bool := true

/-- A word without NO outside of CHECK and NOCHECK leaves its condition alone, which is on
    already; STRINGRANGE is not. No result is ALL, which is no prefix element. -/
def plainState (w : Words) (which : Option Cond) : Option Int :=
  if w.checkMode then some 1
  else if w.noCheckMode then some (-1)
  else match which with
    | none => none
    | some .stringRange => some 1
    | some (.check _) => some 0

def Words.apply (w : Words) (which : Option Cond) (state : Int) : Words :=
  let w := if w.checkMode || w.noCheckMode then { w with named := true } else w
  if state ≠ 0 then { w with st := w.st.setCond which state } else w

def Words.step (w : Words) (text : String) : Words :=
  let w := { w with anyWord := true }
  if text = "CHECK" then { w with checkMode := true, noCheckMode := false, named := false }
  else if text = "NOCHECK" then
    { w with noCheckMode := true, checkMode := false, named := false }
  else
    match whichCond ((withoutNo text).getD text) with
    | none => { w with allHandled := false }
    | some which =>
      match (if (withoutNo text).isSome then some (-1) else plainState w which) with
      | none => { w with allHandled := false }
      | some state => w.apply which state

def wordText : Tok → Option String
  | .word text => some text
  | _ => none

def Words.flags (w : Words) : Flags :=
  if w.noCheckMode && !w.named then w.st.setCond none (-1) else w.st

def readWords (st : Flags) (toks : List Tok) : Words :=
  (toks.filterMap wordText).foldl Words.step { st := st }

def closing : Nat → List Tok → List Tok × List Tok
  | _, [] => ([], [])
  | depth, .lparen :: toks =>
    (.lparen :: (closing (depth + 1) toks).1, (closing (depth + 1) toks).2)
  | depth, .rparen :: toks =>
      if depth - 1 = 0 then ([.rparen], toks)
      else (.rparen :: (closing (depth - 1) toks).1, (closing (depth - 1) toks).2)
  | depth, t :: toks => (t :: (closing depth toks).1, (closing depth toks).2)

theorem closing_rest_length (depth : Nat) (toks : List Tok) :
    (closing depth toks).2.length ≤ toks.length := by
  induction toks generalizing depth with
  | nil => simp [closing]
  | cons t toks ih =>
    have deeper := ih (depth + 1)
    have outer := ih (depth - 1)
    have same := ih depth
    cases t <;> simp only [closing, List.length_cons]
    case rparen =>
      split
      · simp
      · simp only
        omega
    all_goals omega

def mustEndWithColon : String := "condition prefix must end with ':'"
def notEnforced : String := "condition prefixes are parsed but not yet enforced"

/-- The flags after the prefix lists with the tokens behind them, unless a list is not followed
    by a colon, and the diagnostics. -/
def parseCondPrefixes (st : Flags) : List Tok → Option (Flags × List Tok) × List String
  | .lparen :: toks =>
      match _shape : (closing 1 toks).2 with
      | .colon :: rest =>
          let w := readWords st (closing 1 toks).1
          let after := parseCondPrefixes w.flags rest
          (after.1, (if !w.anyWord || !w.allHandled then [notEnforced] else []) ++ after.2)
      | _ => (none, [mustEndWithColon])
  | toks => (some (st, toks), [])
termination_by toks => toks.length
decreasing_by
  have bound := closing_rest_length 1 toks
  rw [_shape] at bound
  simp only [List.length_cons] at bound ⊢
  omega

structure OtherWord where
  text : String
  unknown : text ≠ "CHECK" ∧ text ≠ "NOCHECK" ∧ withoutNo text = none ∧ whichCond text = none

inductive CheckItem where
  | cond (c : Cond)
  | no (c : Cond)
  | all
  | other (w : OtherWord)

inductive Element where
  | cond (c : Cond)
  | no (c : Cond)
  | check (items : List CheckItem)
  | nocheck (items : List CheckItem)
  | other (w : OtherWord)

abbrev Prefix := List (List Element)

def Cond.text : Cond → String
  | .check .size => "SIZE"
  | .check .sub => "SUBSCRIPTRANGE"
  | .check .zdiv => "ZERODIVIDE"
  | .check .conv => "CONVERSION"
  | .check .under => "UNDERFLOW"
  | .check .overflow => "OVERFLOW"
  | .check .fOver => "FIXEDOVERFLOW"
  | .stringRange => "STRINGRANGE"

def Cond.noText : Cond → String
  | .check .size => "NOSIZE"
  | .check .sub => "NOSUBSCRIPTRANGE"
  | .check .zdiv => "NOZERODIVIDE"
  | .check .conv => "NOCONVERSION"
  | .check .under => "NOUNDERFLOW"
  | .check .overflow => "NOOVERFLOW"
  | .check .fOver => "NOFIXEDOVERFLOW"
  | .stringRange => "NOSTRINGRANGE"

def CheckItem.text : CheckItem → String
  | .cond c => c.text
  | .no c => c.noText
  | .all => "ALL"
  | .other w => w.text

def commaList : List (List Tok) → List Tok
  | [] => []
  | [toks] => toks
  | toks :: rest => toks ++ .comma :: commaList rest

def itemToks (items : List CheckItem) : List Tok :=
  .lparen :: (commaList (items.map fun i => [.word i.text]) ++ [.rparen])

def Element.toks : Element → List Tok
  | .cond c => [.word c.text]
  | .no c => [.word c.noText]
  | .check items => .word "CHECK" :: itemToks items
  | .nocheck [] => [.word "NOCHECK"]
  | .nocheck items => .word "NOCHECK" :: itemToks items
  | .other w => [.word w.text]

def listToks (l : List Element) : List Tok :=
  .lparen :: (commaList (l.map Element.toks) ++ [.rparen, .colon])

def prefixToks (pre : Prefix) : List Tok := pre.flatMap listToks ++ [.other]

/-- A statement of the source. A group is an IF, DO, SELECT or BEGIN with the statements in it;
    a failed statement is one that is given up after the statements in it were read. Where no
    colon follows the last list, what comes next is read as a statement of its own. -/
inductive Src (α : Type) where
  | stmt (pre : Prefix) (text : α)
  | group (pre : Prefix) (text : α) (body : List (Src α))
  | on (pre : Prefix) (text : α) (unit : Src α)
  | procedure (pre : Prefix) (body : List (Src α))
  | failed (pre : Prefix) (inner : List (Src α))
  | noColon (pre : Prefix) (last : List Element)

inductive Stmt (α : Type) where
  | stmt (flags : Flags) (text : α)
  | group (flags : Flags) (text : α) (body : List (Stmt α))
  | on (flags : Flags) (text : α) (unit : List (Stmt α))

/-- The parser's fields: `procCond` is 0 for the default, 1 for a disabled check and 2 for one
    that CHECK enables again. -/
structure State where
  procCond : Check → Nat
  procStrRange : Int

def State.initial : State := { procCond := fun _ => 0, procStrRange := 0 }

def State.flags (s : State) : Flags :=
  { no := fun c => s.procCond c == 1, chk := fun _ => false, strRange := s.procStrRange }

def Flags.unset : Flags := { no := fun _ => false, chk := fun _ => false, strRange := 0 }

def State.enterRange (s : State) (flags : Flags) : State :=
  if flags.strRange ≠ 0 then { s with procStrRange := flags.strRange } else s

def State.enterConds (s : State) (flags : Flags) : State :=
  { s with procCond := fun c =>
      if flags.no c then 1 else if flags.chk c then 2 else s.procCond c }

def withRange {β : Type} (s : State) (flags : Flags) (run : State → State × β) : State × β :=
  let result := run (s.enterRange flags)
  ({ result.1 with procStrRange := s.procStrRange }, result.2)

def withConds {β : Type} (s : State) (flags : Flags) (run : State → State × β) : State × β :=
  let result := run (s.enterConds flags)
  ({ result.1 with procCond := s.procCond }, result.2)

abbrev Parsed (α : Type) := State × Option (Stmt α) × List (List (Stmt α))

mutual

def parseStatement {α : Type} (s : State) : Src α → Parsed α
  | .stmt pre text =>
      match (parseCondPrefixes s.flags (prefixToks pre)).1 with
      | none => (s, none, [])
      | some (flags, _) => withRange s flags fun s => (s, some (.stmt flags text), [])
  | .group pre text body =>
      match (parseCondPrefixes s.flags (prefixToks pre)).1 with
      | none => (s, none, [])
      | some (flags, _) => withRange s flags fun s =>
          let inner := parseBody s body
          (inner.1, some (.group flags text inner.2.1), inner.2.2)
  | .on pre text unit =>
      match (parseCondPrefixes s.flags (prefixToks pre)).1 with
      | none => (s, none, [])
      | some (flags, _) => withRange s flags fun s =>
          let inner := parseStatement s unit
          (inner.1, some (.on flags text inner.2.1.toList), inner.2.2)
  | .procedure pre body =>
      match (parseCondPrefixes s.flags (prefixToks pre)).1 with
      | none => (s, none, [])
      | some (flags, _) => withRange s flags fun s =>
          -- the range is set and restored a second time around the body
          withRange s flags fun s => withConds s flags fun s =>
            let inner := parseBody s body
            (inner.1, none, inner.2.1 :: inner.2.2)
  | .failed pre inner =>
      match (parseCondPrefixes s.flags (prefixToks pre)).1 with
      | none => (s, none, [])
      | some (flags, _) => withRange s flags fun s =>
          let inner := parseBody s inner
          (inner.1, none, inner.2.2)
  | .noColon pre last =>
      match (parseCondPrefixes s.flags
          (pre.flatMap listToks ++ (listToks last).dropLast ++ [.other])).1 with
      | none => (s, none, [])
      | some (flags, _) => withRange s flags fun s => (s, none, [])

def parseBody {α : Type} (s : State) : List (Src α) → State × List (Stmt α) × List (List (Stmt α))
  | [] => (s, [], [])
  | x :: xs =>
      let first := parseStatement s x
      let rest := parseBody first.1 xs
      (rest.1, first.2.1.toList ++ rest.2.1, first.2.2 ++ rest.2.2)

end

structure External (α : Type) where
  pre : Prefix
  body : List (Src α)

def parseExternalProcedure {α : Type} (s : State) (p : External α) :
    State × List (List (Stmt α)) :=
  match (parseCondPrefixes Flags.unset (prefixToks p.pre)).1 with
  | none => (s, [])
  | some (flags, _) => withRange s flags fun s => withConds s flags fun s =>
      let inner := parseBody s p.body
      (inner.1, inner.2.1 :: inner.2.2)

def parseProgram {α : Type} (s : State) : List (External α) → List (List (Stmt α))
  | [] => []
  | p :: ps =>
      (parseExternalProcedure s p).2 ++ parseProgram (parseExternalProcedure s p).1 ps

structure CheckState where
  no : Check → Bool
  strRange : Int

def CheckState.default : CheckState := { no := fun _ => false, strRange := 0 }

/-- The entry for a statement inside of the entry `top`. -/
def CheckState.enter (top : CheckState) (s : Flags) : CheckState :=
  { no := fun c => if s.chk c then false else top.no c || s.no c
    strRange := if s.strRange ≠ 0 then s.strRange else top.strRange }

def pushChecks (stack : List CheckState) (s : Flags) : List CheckState :=
  (stack.headD CheckState.default).enter s :: stack

abbrev Emitted (α : Type) := α × List CheckState

mutual

def emitStmt {α : Type} (stack : List CheckState) : Stmt α → List (Emitted α)
  | .stmt flags text => [(text, pushChecks stack flags)]
  | .group flags text body =>
      (text, pushChecks stack flags) :: emitStmts (pushChecks stack flags) body
  -- the unit is generated by `emitOnHandlers`
  | .on flags text _ => [(text, pushChecks stack flags)]

def emitStmts {α : Type} (stack : List CheckState) : List (Stmt α) → List (Emitted α)
  | [] => []
  | s :: rest => emitStmt stack s ++ emitStmts stack rest

end

mutual

def collectOnStmts {α : Type} : Stmt α → List (List (Stmt α))
  | .stmt _ _ => []
  | .group _ _ body => collectOns body
  | .on _ _ unit => unit :: collectOns unit

def collectOns {α : Type} : List (Stmt α) → List (List (Stmt α))
  | [] => []
  | s :: rest => collectOnStmts s ++ collectOns rest

end

def emitProc {α : Type} (body : List (Stmt α)) : List (Emitted α) := emitStmts [] body

def emitOnHandlers {α : Type} (body : List (Stmt α)) : List (Emitted α) :=
  (collectOns body).flatMap (emitStmts [])

def emitProgram {α : Type} (procs : List (List (Stmt α))) : List (Emitted α) :=
  procs.flatMap emitProc ++ procs.flatMap emitOnHandlers

structure Switches where
  noSizeChecks : Bool
  noSubChecks : Bool
  noZdivChecks : Bool
  noConvChecks : Bool

def checkOn (off : Bool) (c : Check) (stack : List CheckState) : Bool :=
  !off && (stack.isEmpty || !(stack.headD CheckState.default).no c)

def sizeChecks (sw : Switches) := checkOn sw.noSizeChecks .size
def subChecks (sw : Switches) := checkOn sw.noSubChecks .sub
def zdivChecks (sw : Switches) := checkOn sw.noZdivChecks .zdiv
def convChecks (sw : Switches) := checkOn sw.noConvChecks .conv
def underflowChecks (sw : Switches) := checkOn sw.noSizeChecks .under
def overflowChecks (sw : Switches) := checkOn sw.noSizeChecks .overflow
def fixedOverflowChecks (sw : Switches) := checkOn sw.noSizeChecks .fOver

def strRangeChecks (stack : List CheckState) : Bool :=
  !stack.isEmpty && (stack.headD CheckState.default).strRange == 1

def enabled (sw : Switches) (stack : List CheckState) : Cond → Bool
  | .check .size => sizeChecks sw stack
  | .check .sub => subChecks sw stack
  | .check .zdiv => zdivChecks sw stack
  | .check .conv => convChecks sw stack
  | .check .under => underflowChecks sw stack
  | .check .overflow => overflowChecks sw stack
  | .check .fOver => fixedOverflowChecks sw stack
  | .stringRange => strRangeChecks stack

end PliCondPrefix
