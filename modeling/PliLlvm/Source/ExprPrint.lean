import PliLlvm.Source.ExprParser

/- What expressions print as, by the rules (115)-(124), and that the parser reads it back.
   A printing may have parentheses wherever a primitive expression may stand, and any
   spelling of an operator. -/
namespace PliParser
open PliLexer (Tok Token Diag word)

inductive Nt where
  | args
  | argList
  | basic
  | reference
  | primary
  | unary
  | level (p : Nat)

def goodNumber (t : Token) : Bool :=
  !(t.sterling && !sterlingOk t.text) &&
    !(!t.sterling && !t.imaginary && t.isFloat && t.binaryRadix)

inductive Dotted : List Bytes → List Token → Prop where
  | nil : Dotted [] []
  | cons {dot name : Token} {path : List Bytes} {ts : List Token} (isDot : dot.kind = .dot)
      (isWord : name.kind = .word) (more : Dotted path ts) :
      Dotted (name.text :: path) (dot :: name :: ts)

def beforeOperand (ts : List Token) (next : Token) : Bool :=
  match ts with
  | t :: us =>
    t.kind == .word && t.text == word "NOT" && operandStart (us.headD next).kind
  | [] => false

def spellsPrefix (op : Tok) (t : Token) (operand : List Token) (next : Token) : Prop :=
  (t.kind = op ∧ (op = .plus ∨ op = .minus ∨ op = .not)) ∨
    (op = .not ∧ beforeOperand (t :: operand) next = true)

/-- The infix operators with their levels, rules (115)-(121), and the words of the
    48-character set that stand for their symbols. -/
def infixRules : List (Nat × Tok × Option String) :=
  [(1, .bar, "OR"), (2, .amp, "AND"), (3, .eq, none), (3, .ne, "NE"), (3, .lt, "LT"),
    (3, .le, "LE"), (3, .gt, "GT"), (3, .ge, "GE"), (3, .ngt, "NG"), (3, .nlt, "NL"),
    (4, .concat, "CAT"), (5, .plus, none), (5, .minus, none), (6, .star, none), (6, .slash, none)]

def Spells (t : Token) (op : Tok) (p : Nat) : Prop :=
  ∃ rule ∈ infixRules, rule.1 = p ∧ rule.2.1 = op ∧
    (t.kind = op ∨ t.kind = .word ∧ ∃ w ∈ rule.2.2, t.text = word w)

/-- `Prints nt d es ts next`: the expressions print as the tokens, with `d` calls of
    parseExpr and parseUnary inside one another, where the token `next` follows. -/
inductive Prints : Nt → Nat → List Expr → List Token → Token → Prop where
  | number {t next : Token} (kind : t.kind = .number) (good : goodNumber t = true) :
      Prints .primary 0 [.number (.of t)] [t] next
  | charLit {t next : Token} (kind : t.kind = .charLit) :
      Prints .primary 0 [.charLit t.sval] [t] next
  | bitLit {t next : Token} (kind : t.kind = .bitLit) :
      Prints .primary 0 [.bitLit t.sval] [t] next
  | hexLit {t next : Token} {bytes : Bytes} (kind : t.kind = .hexLit)
      (decoded : decodeHexLiteral t.sval = .ok bytes) :
      Prints .primary 0 [.charLit bytes] [t] next
  | name {t next : Token} {path : List Bytes} {dots : List Token} (kind : t.kind = .word)
      (members : Dotted path dots) :
      Prints .basic 0 [.ref t.text path none none] (t :: dots) next
  | called {t left right next : Token} {path₁ path₂ : List Bytes} {dots₁ dots₂ ts : List Token}
      {d : Nat} {es : List Expr} (kind : t.kind = .word) (members₁ : Dotted path₁ dots₁)
      (opens : left.kind = .lParen) (list : Prints .argList d es ts right)
      (closes : right.kind = .rParen) (members₂ : Dotted path₂ dots₂) :
      Prints .basic d [.ref t.text (path₁ ++ path₂) (some es) none]
        (t :: dots₁ ++ left :: ts ++ right :: dots₂) next
  | noArgs {next : Token} : Prints .argList 0 [] [] next
  | someArgs {d : Nat} {es : List Expr} {ts : List Token} {next : Token}
      (list : Prints .args d es ts next) : Prints .argList d es ts next
  | lastArg {d : Nat} {e : Expr} {ts : List Token} {next : Token}
      (arg : Prints (.level 1) d [e] ts next) : Prints .args (d + 1) [e] ts next
  | moreArgs {d₁ d₂ : Nat} {e : Expr} {es : List Expr} {ts₁ ts₂ : List Token}
      {comma next : Token} (arg : Prints (.level 1) d₁ [e] ts₁ comma)
      (isComma : comma.kind = .comma) (list : Prints .args d₂ es ts₂ next) :
      Prints .args (max (d₁ + 1) d₂) (e :: es) (ts₁ ++ comma :: ts₂) next
  | unlocated {d : Nat} {e : Expr} {ts : List Token} {next : Token}
      (based : Prints .basic d [e] ts next) : Prints .reference d [e] ts next
  | located {d₁ d₂ : Nat} {l : Expr} {name : Bytes} {path : List Bytes}
      {args : Option (List Expr)} {ts₁ ts₂ : List Token} {arrow next : Token}
      (locator : Prints .reference d₁ [l] ts₁ arrow) (isArrow : arrow.kind = .arrow)
      (based : Prints .basic d₂ [.ref name path args none] ts₂ next) :
      Prints .reference (max d₁ d₂) [.ref name path args (some l)] (ts₁ ++ arrow :: ts₂) next
  | reference {d : Nat} {e : Expr} {ts : List Token} {next : Token}
      (refer : Prints .reference d [e] ts next) (plain : beforeOperand ts next = false) :
      Prints .primary d [e] ts next
  | paren {d : Nat} {e : Expr} {ts : List Token} {left right next : Token}
      (opens : left.kind = .lParen) (inner : Prints (.level 1) d [e] ts right)
      (closes : right.kind = .rParen) :
      Prints .primary (d + 1) [e] (left :: ts ++ [right]) next
  | plain {d : Nat} {e : Expr} {ts : List Token} {next : Token}
      (operand : Prints .primary d [e] ts next) : Prints .unary d [e] ts next
  | prefixed {d : Nat} {e : Expr} {ts : List Token} {op : Tok} {t next : Token}
      (spelled : spellsPrefix op t ts next) (operand : Prints .unary d [e] ts next) :
      Prints .unary (d + 1) [.unary op e] (t :: ts) next
  | power {d₁ d₂ : Nat} {a b : Expr} {ts₁ ts₂ : List Token} {op next : Token}
      (base : Prints .primary d₁ [a] ts₁ op) (isPower : op.kind = .power)
      (exponent : Prints .unary d₂ [b] ts₂ next) :
      Prints .unary (max d₁ (d₂ + 1)) [.binary .power a b] (ts₁ ++ op :: ts₂) next
  | tight {d : Nat} {e : Expr} {ts : List Token} {next : Token}
      (operand : Prints .unary d [e] ts next) : Prints (.level 7) (d + 1) [e] ts next
  | loose {d p : Nat} {e : Expr} {ts : List Token} {next : Token}
      (tighter : Prints (.level (p + 1)) d [e] ts next) : Prints (.level p) d [e] ts next
  | infixed {d₁ d₂ p : Nat} {a b : Expr} {ts₁ ts₂ : List Token} {op : Tok} {t next : Token}
      (left : Prints (.level p) d₁ [a] ts₁ t) (spelled : Spells t op p)
      (right : Prints (.level (p + 1)) d₂ [b] ts₂ next) :
      Prints (.level p) (max d₁ (d₂ + 1)) [.binary op a b] (ts₁ ++ t :: ts₂) next

def goesOn : Nt → List Tok
  | .args | .argList => []
  | .basic | .reference => [.lParen, .dot]
  | .primary => [.lParen, .dot, .arrow, .charLit, .bitLit, .hexLit]
  | .unary | .level _ => [.lParen, .dot, .arrow, .charLit, .bitLit, .hexLit, .power]

def Follows (nt : Nt) (t : Token) : Prop :=
  t.kind ∉ goesOn nt ∧
    match nt with
    | .args | .argList => t.kind = .rParen
    | .level p => ∀ op q, Spells t op q → q ≤ p
    | _ => True

mutual

def dropPlus : Expr → Expr
  | .ref name path args locPtr => .ref name path (dropPlusArgs args) (dropPlusLoc locPtr)
  | .unary op a => if op = .plus then dropPlus a else .unary op (dropPlus a)
  | .binary op a b => .binary op (dropPlus a) (dropPlus b)
  | e => e

def dropPlusList : List Expr → List Expr
  | [] => []
  | e :: es => dropPlus e :: dropPlusList es

def dropPlusArgs : Option (List Expr) → Option (List Expr)
  | none => none
  | some es => some (dropPlusList es)

def dropPlusLoc : Option Expr → Option Expr
  | none => none
  | some e => some (dropPlus e)

end

@[simp] theorem cur_cons (t : Token) (ts : List Token) (errs : List Diag) :
    (PState.mk (t :: ts) errs).cur = t := rfl

@[simp] theorem at_cons (t : Token) (ts : List Token) (errs : List Diag) (k : Tok) :
    (PState.mk (t :: ts) errs).at_ k = (t.kind == k) := rfl

@[simp] theorem advance_cons (t u : Token) (ts : List Token) (errs : List Diag) :
    (PState.mk (t :: u :: ts) errs).advance = ⟨u :: ts, errs⟩ := rfl

@[simp] theorem advance_append (t next : Token) (ts rest : List Token)
    (errs : List Diag) :
    (PState.mk (t :: (ts ++ next :: rest)) errs).advance = ⟨ts ++ next :: rest, errs⟩ := by
  cases ts <;> rfl

theorem peek_one (t next : Token) (ts rest : List Token) (errs : List Diag) :
    (PState.mk (t :: (ts ++ next :: rest)) errs).peek 1 = ts.headD next := by
  cases ts <;> rfl

variable {ts : List Token}

theorem path_read {path : List Bytes} (members : Dotted path ts)
    {next : Token} (ends : next.kind ≠ .dot) (fuel : Nat) (enough : ts.length ≤ fuel)
    (rest : List Token) (errs : List Diag) :
    parsePath fuel ⟨ts ++ next :: rest, errs⟩ = (path, ⟨next :: rest, errs⟩) := by
  induction members generalizing fuel with
  | nil =>
    cases fuel with
    | zero => rfl
    | succ fuel => simp [parsePath, ends]
  | cons isDot isWord more ih =>
    cases fuel with
    | zero => simp at enough
    | succ fuel =>
      have shorter := ih fuel (by simp only [List.length_cons] at enough; omega)
      simp [parsePath, isDot, isWord, shorter]

def startKinds : List Tok :=
  [.word, .number, .charLit, .bitLit, .hexLit, .lParen, .plus, .minus, .not]

variable {t next : Token}

theorem prefix_kind {op : Tok}
    (spelled : spellsPrefix op t ts next) : t.kind ∈ [Tok.plus, .minus, .not, .word] := by
  rcases spelled with ⟨kind, which⟩ | ⟨_, before⟩
  · rcases which with rfl | rfl | rfl <;> simp [kind]
  · simp only [beforeOperand, Bool.and_eq_true, beq_iff_eq] at before
    simp [before.1.1]

variable {nt : Nt} {d : Nat} {es : List Expr}

theorem printed_starts (printed : Prints nt d es ts next) (some : nt ≠ .argList) :
    ∃ t us, ts = t :: us ∧ t.kind ∈ startKinds := by
  induction printed with
  | number kind | charLit kind | bitLit kind | hexLit kind =>
    exact ⟨_, [], rfl, by simp [kind, startKinds]⟩
  | name kind | called kind => exact ⟨_, _, rfl, by simp [kind, startKinds]⟩
  | noArgs | someArgs => exact absurd rfl some
  | paren opens => exact ⟨_, _, rfl, by simp [opens, startKinds]⟩
  | prefixed spelled =>
    refine ⟨_, _, rfl, ?_⟩
    have kind := prefix_kind spelled
    simp only [List.mem_cons, List.not_mem_nil, or_false] at kind
    rcases kind with kind | kind | kind | kind <;> simp [kind, startKinds]
  | lastArg _ ih | unlocated _ ih | plain _ ih | tight _ ih | loose _ ih | reference _ _ ih =>
    exact ih (by simp)
  | moreArgs _ _ _ ih | located _ _ _ ih | power _ _ _ ih | infixed _ _ _ ih =>
    obtain ⟨t, us, rfl, kind⟩ := ih (by simp)
    exact ⟨t, _, rfl, kind⟩

theorem spells_iff {op : Tok} {p : Nat} :
    Spells t op p ↔ infixOp t = op ∧ precOf op = p ∧ 0 < p := by
  unfold Spells infixOp
  constructor
  · rintro ⟨rule, member, rfl, rfl, kind | ⟨kind, w, named, text⟩⟩
    · simp only [infixRules, List.mem_cons, List.not_mem_nil, or_false] at member
      rcases member with rfl | rfl | rfl | rfl | rfl | rfl | rfl | rfl | rfl | rfl | rfl | rfl |
        rfl | rfl | rfl <;> simp_all [precOf]
    · simp only [kind, text]
      have all : ∀ rule ∈ infixRules, ∀ w ∈ rule.2.2,
          (operatorWords.lookup (word w)).getD .eof = rule.2.1 ∧ precOf rule.2.1 = rule.1 ∧
            0 < rule.1 := by decide
      exact all rule member w named
  · rintro ⟨rfl, rfl, binds⟩
    have symbols : ∀ op : Tok, 0 < precOf op → ∃ rule ∈ infixRules, rule.1 = precOf op ∧
        rule.2.1 = op := by
      intro op
      cases op <;> decide
    have words : ∀ spelling ∈ operatorWords, ∃ rule ∈ infixRules,
        rule.1 = precOf spelling.2 ∧ rule.2.1 = spelling.2 ∧
          ∃ w ∈ rule.2.2, spelling.1 = word w := by decide
    by_cases kind : t.kind = .word
    · cases found : operatorWords.lookup t.text with
      | none => simp [kind, found, precOf] at binds
      | some op =>
        obtain ⟨before, after, split, -⟩ := List.lookup_eq_some_iff.mp found
        obtain ⟨rule, member, level, same, w, named, text⟩ := words (t.text, op) (by simp [split])
        exact ⟨rule, member, by simpa [kind, found] using level, by simpa [kind, found] using same,
          .inr ⟨kind, w, named, text⟩⟩
    · obtain ⟨rule, member, level, same⟩ := symbols _ binds
      refine ⟨rule, member, level, same, .inl ?_⟩
      clear symbols words level same
      generalize t.kind = k at kind binds ⊢
      cases k <;> first | rfl | exact absurd rfl kind | exact absurd binds (Nat.lt_irrefl 0)

theorem operator_kind {op : Tok} {p : Nat} (spelled : Spells t op p) :
    t.kind ∈ [Tok.bar, .amp, .concat, .eq, .ne, .lt, .le, .gt, .ge, .ngt, .nlt, .plus, .minus,
      .star, .slash, .word] := by
  obtain ⟨rule, member, -, rfl, kind | ⟨kind, -⟩⟩ := spelled
  · rw [kind]
    have all : ∀ rule ∈ infixRules, rule.2.1 ∈ [Tok.bar, .amp, .concat, .eq, .ne, .lt, .le, .gt,
      .ge, .ngt, .nlt, .plus, .minus, .star, .slash, .word] := by decide
    exact all rule member
  · simp [kind]

theorem reference_word (printed : Prints nt d es ts next) (refers : nt = .basic ∨ nt = .reference) :
    ∃ t us, ts = t :: us ∧ t.kind = .word := by
  induction printed with
  | name kind | called kind => exact ⟨_, _, rfl, kind⟩
  | unlocated _ ih => exact ih (by simp)
  | located _ _ _ ih =>
    obtain ⟨t, us, rfl, kind⟩ := ih (by simp)
    exact ⟨t, _, rfl, kind⟩
  | _ => simp at refers

theorem primary_no_prefix
    (printed : Prints .primary d es ts next) (rest : List Token) (errs : List Diag) :
    prefixOp ⟨ts ++ next :: rest, errs⟩ = none := by
  cases printed with
  | number kind | charLit kind | bitLit kind | hexLit kind => simp [prefixOp, kind]
  | reference refer plain =>
    obtain ⟨t, us, rfl, kind⟩ := reference_word refer (.inr rfl)
    have apart : t.text = word "NOT" → operandStart (us.headD next).kind = false := by
      simpa [beforeOperand, kind] using plain
    simp only [prefixOp, List.cons_append, at_cons, cur_cons, peek_one, kind]
    simpa using apart
  | paren opens => simp [prefixOp, opens]

theorem number_first (printed : Prints nt d es ts next) :
    ∀ t u us, ts = t :: u :: us → t.kind = .number → u.kind ≠ .rParen := by
  have joined : ∀ {ts₁ ts₂ : List Token} {op : Token}, op.kind ≠ .rParen → ts₁ ≠ [] →
      (∀ t u us, ts₁ = t :: u :: us → t.kind = .number → u.kind ≠ .rParen) →
      ∀ t u us, ts₁ ++ op :: ts₂ = t :: u :: us → t.kind = .number → u.kind ≠ .rParen := by
    intro ts₁ ts₂ op inside nonempty first t u us shape number
    rcases ts₁ with _ | ⟨head, _ | ⟨next, rest⟩⟩
    · exact absurd rfl nonempty
    · obtain ⟨rfl, rfl, rfl⟩ := by simpa using shape
      exact inside
    · obtain ⟨rfl, rfl, rfl⟩ := by simpa using shape
      exact first _ _ _ rfl number
  have nonempty {nt : Nt} {d : Nat} {es : List Expr} {ts : List Token} {next : Token}
      (printed : Prints nt d es ts next) (some : nt ≠ .argList) : ts ≠ [] := by
    obtain ⟨t, us, rfl, _⟩ := printed_starts printed some
    simp
  induction printed with
  | number | charLit | bitLit | hexLit | noArgs => intro t u us shape; simp at shape
  | name kind | called kind | paren opens => intro t u us shape number; simp_all
  | prefixed spelled =>
    intro t u us shape number
    have kind := prefix_kind spelled
    obtain ⟨rfl, -⟩ := by simpa using shape
    simp [number] at kind
  | someArgs _ ih | lastArg _ ih | unlocated _ ih | plain _ ih | tight _ ih | loose _ ih
  | reference _ _ ih => exact ih
  | moreArgs arg isComma _ ih => exact joined (by simp [isComma]) (nonempty arg (by simp)) ih
  | located locator isArrow _ ih =>
    exact joined (by simp [isArrow]) (nonempty locator (by simp)) ih
  | power base isPower _ ih => exact joined (by simp [isPower]) (nonempty base (by simp)) ih
  | infixed left spelled _ ih =>
    have kind := operator_kind spelled
    exact joined (by intro close; simp [close] at kind) (nonempty left (by simp)) ih

theorem follows_narrower {wide narrow : Nt} (follows : Follows wide t)
    (fewer : ∀ k ∈ goesOn narrow, k ∈ goesOn wide)
    (plain : narrow = .basic ∨ narrow = .primary ∨ narrow = .reference ∨ narrow = .unary) :
    Follows narrow t := by
  refine ⟨fun goes => follows.1 (fewer _ goes), ?_⟩
  rcases plain with rfl | rfl | rfl | rfl <;> trivial

theorem close_follows (p : Nat) (closes : t.kind = .rParen ∨ t.kind = .comma) :
    Follows (.level p) t := by
  refine ⟨by rcases closes with kind | kind <;> simp [goesOn, kind], fun op q spelled => ?_⟩
  have operator := operator_kind spelled
  rcases closes with kind | kind <;> simp [kind] at operator

variable {p : Nat}

theorem level_le_iff : (∀ op q, Spells t op q → q ≤ p) ↔ precOf (infixOp t) ≤ p := by
  constructor
  · intro below
    by_cases binds : 0 < precOf (infixOp t)
    · exact below _ _ (spells_iff.mpr ⟨rfl, rfl, binds⟩)
    · omega
  · intro below op q spelled
    obtain ⟨rfl, rfl, -⟩ := spells_iff.mp spelled
    exact below

theorem follows_level_succ (follows : Follows (.level p) t) : Follows (.level (p + 1)) t :=
  ⟨follows.1, fun op q spelled => Nat.le_succ_of_le (follows.2 op q spelled)⟩

theorem operator_follows {op : Tok} (spelled : Spells t op p) : Follows (.level p) t := by
  obtain ⟨same, level, -⟩ := spells_iff.mp spelled
  refine ⟨?_, level_le_iff.mpr (Nat.le_of_eq (same ▸ level))⟩
  have kind := operator_kind spelled
  intro goes
  simp only [goesOn, List.mem_cons, List.not_mem_nil, or_false] at goes kind
  rcases goes with goes | goes | goes | goes | goes | goes | goes <;> simp [goes] at kind

def Reads (calls : Calls) (es : List Expr) (ts : List Token) (next : Token) : Nt → Prop
  | .args => ∀ name fuel rest errs, ts.length ≤ fuel →
      parseArgs calls name fuel ⟨ts ++ next :: rest, errs⟩ =
        (dropPlusList es, ⟨next :: rest, errs⟩)
  | .argList => ∀ name left u rest errs, left.kind = .lParen →
      parseArgList calls name ⟨left :: (ts ++ next :: u :: rest), errs⟩ =
        (some (dropPlusList es), ⟨u :: rest, errs⟩)
  | .basic => ∀ name path args locPtr rest errs, es = [.ref name path args none] →
      parseBasic calls locPtr ⟨ts ++ next :: rest, errs⟩ =
        (.ref name path (dropPlusArgs args) locPtr, ⟨next :: rest, errs⟩)
  | .reference => ∀ e rest errs, es = [e] →
      let first := parseBasic calls none ⟨ts ++ next :: rest, errs⟩
      ∃ fuel, rest.length < fuel ∧
        parseLocated calls first.2.toks.length first.1 first.2 =
          parseLocated calls fuel (dropPlus e) ⟨next :: rest, errs⟩
  | .primary => ∀ e rest errs, es = [e] →
      parsePrimary calls ⟨ts ++ next :: rest, errs⟩ = (some (dropPlus e), ⟨next :: rest, errs⟩)
  | .unary => ∀ e rest errs, es = [e] →
      parseUnary calls ⟨ts ++ next :: rest, errs⟩ = (some (dropPlus e), ⟨next :: rest, errs⟩)
  | .level p => ∀ e minPrec rest errs, es = [e] → minPrec ≤ p →
      ∃ fuel, rest.length < fuel ∧
        parseExpr calls minPrec ⟨ts ++ next :: rest, errs⟩ =
          exprLoop calls minPrec fuel (dropPlus e) ⟨next :: rest, errs⟩

theorem loop_stops (calls : Calls) (minPrec fuel : Nat) (e : Expr) (next : Token)
    (rest : List Token) (errs : List Diag)
    (weak : precOf (infixOp next) = 0 ∨ precOf (infixOp next) < minPrec) :
    exprLoop calls minPrec fuel e ⟨next :: rest, errs⟩ = (some e, ⟨next :: rest, errs⟩) := by
  cases fuel with
  | zero => rfl
  | succ fuel => simp [exprLoop, weak]

theorem loop_goes (calls : Calls) {minPrec p fuel : Nat} {a b : Expr} {op next : Token}
    {ts rest : List Token} {errs : List Diag} (level : precOf (infixOp op) = p)
    (binds : 0 < p) (low : minPrec ≤ p)
    (right : calls.expr (p + 1) ⟨ts ++ next :: rest, errs⟩ = (some b, ⟨next :: rest, errs⟩)) :
    exprLoop calls minPrec (fuel + 1) a ⟨op :: (ts ++ next :: rest), errs⟩ =
      exprLoop calls minPrec fuel (.binary (infixOp op) a b) ⟨next :: rest, errs⟩ := by
  have operator : infixOp op ≠ .eof := by
    intro none
    simp only [none, precOf] at level
    omega
  have goes : ¬(infixOp op = .eof ∨ p = 0 ∨ p < minPrec) := by
    rintro (none | none | none)
    · exact operator none
    · omega
    · omega
  simp [exprLoop, level, goes, right]

variable {left : Nat} {e : Expr}

theorem expr_read {minPrec : Nat}
    (reads : Reads (callsAt left) [e] ts next (.level p)) (low : minPrec ≤ p)
    (weak : precOf (infixOp next) = 0 ∨ precOf (infixOp next) < minPrec)
    (rest : List Token) (errs : List Diag) :
    (callsAt (left + 1)).expr minPrec ⟨ts ++ next :: rest, errs⟩ =
      (some (dropPlus e), ⟨next :: rest, errs⟩) := by
  obtain ⟨fuel, _, parsed⟩ := reads e minPrec rest errs rfl low
  calc (callsAt (left + 1)).expr minPrec ⟨ts ++ next :: rest, errs⟩
      = exprLoop (callsAt left) minPrec fuel (dropPlus e) ⟨next :: rest, errs⟩ := parsed
    _ = (some (dropPlus e), ⟨next :: rest, errs⟩) := loop_stops _ _ _ _ _ _ _ weak

theorem unary_read (reads : Reads (callsAt left) [e] ts next .unary) (rest : List Token)
    (errs : List Diag) :
    (callsAt (left + 1)).unary ⟨ts ++ next :: rest, errs⟩ =
      (some (dropPlus e), ⟨next :: rest, errs⟩) :=
  reads e rest errs rfl

theorem follows_basic (follows : Follows .basic next) : next.kind ≠ .dot ∧ next.kind ≠ .lParen := by
  refine ⟨fun dot => ?_, fun paren => ?_⟩
  · simp [Follows, goesOn, dot] at follows
  · simp [Follows, goesOn, paren] at follows

theorem name_reads (calls : Calls) {t next : Token} {path : List Bytes} {dots : List Token}
    (members : Dotted path dots) (follows : Follows .basic next) :
    Reads calls [.ref t.text path none none] (t :: dots) next .basic := by
  intro name path' args locPtr rest errs same
  obtain ⟨rfl, rfl, rfl⟩ := by simpa using same
  obtain ⟨noDot, noParen⟩ := follows_basic follows
  have before := path_read members noDot (t :: (dots ++ next :: rest)).length
    (by simp only [List.length_cons, List.length_append]; omega) rest errs
  have after := path_read .nil noDot (next :: rest).length (Nat.zero_le _) rest errs
  rw [List.nil_append] at after
  simp only [parseBasic, List.cons_append, cur_cons, advance_append, before, parseArgList,
    at_cons, beq_eq_false_iff_ne.mpr noParen, Bool.false_eq_true, if_false, after,
    List.append_nil, dropPlusArgs]

theorem called_reads (calls : Calls) {t left right next : Token} {path₁ path₂ : List Bytes}
    {dots₁ dots₂ ts : List Token} {es : List Expr} (members₁ : Dotted path₁ dots₁)
    (opens : left.kind = .lParen) (reads : Reads calls es ts right .argList)
    (members₂ : Dotted path₂ dots₂) (follows : Follows .basic next) :
    Reads calls [.ref t.text (path₁ ++ path₂) (some es) none]
      (t :: dots₁ ++ left :: ts ++ right :: dots₂) next .basic := by
  intro name path args locPtr rest errs same
  obtain ⟨rfl, rfl, rfl⟩ := by simpa using same
  obtain ⟨noDot, -⟩ := follows_basic follows
  obtain ⟨u, us, tail⟩ : ∃ u us, dots₂ ++ next :: rest = u :: us := by
    cases dots₂ with
    | nil => exact ⟨next, rest, rfl⟩
    | cons u us => exact ⟨u, us ++ next :: rest, rfl⟩
  have noDot' : left.kind ≠ .dot := by simp [opens]
  have before := path_read members₁ noDot'
    (t :: (dots₁ ++ left :: (ts ++ right :: u :: us))).length
    (by simp only [List.length_cons, List.length_append]; omega) (ts ++ right :: u :: us) errs
  have list := reads t.text left u us errs opens
  have after := path_read members₂ noDot (dots₂ ++ next :: rest).length
    (by simp only [List.length_append]; omega) rest errs
  rw [tail] at after
  simp only [parseBasic, List.cons_append, List.append_assoc, tail, cur_cons, advance_append,
    before, list, after, dropPlusArgs]

theorem some_args_read (calls : Calls) {d : Nat} {es : List Expr} {ts : List Token}
    {next : Token} (list : Prints .args d es ts next) (closes : next.kind = .rParen)
    (reads : Reads calls es ts next .args) : Reads calls es ts next .argList := by
  intro name left u rest errs opens
  obtain ⟨t, us, rfl, kind⟩ := printed_starts list (by simp)
  have open' : t.kind ≠ .rParen := by
    intro close
    simp [close, startKinds] at kind
  have inside := reads name (t :: us ++ next :: u :: rest).length (u :: rest) errs
    (by simp only [List.length_append]; omega)
  rw [List.cons_append] at inside
  simp only [parseArgList, at_cons, opens, beq_self_eq_true, if_true, List.cons_append,
    advance_cons, beq_eq_false_iff_ne.mpr open', Bool.false_eq_true, if_false, inside, expect,
    closes]

theorem no_args_read (calls : Calls) {next : Token} (closes : next.kind = .rParen) :
    Reads calls [] [] next .argList := by
  intro name left u rest errs opens
  simp [parseArgList, opens, closes, expect, dropPlusList]

theorem arg_read (arg : Prints (.level 1) d [e] ts next) (weak : precOf (infixOp next) = 0)
    (reads : Reads (callsAt left) [e] ts next (.level 1)) (name : Bytes) (rest : List Token)
    (errs : List Diag) :
    parseArg (callsAt (left + 1)) name ⟨ts ++ next :: rest, errs⟩ =
      (dropPlus e, ⟨next :: rest, errs⟩) := by
  have parsed := expr_read reads (Nat.le_refl 1) (.inl weak) rest errs
  obtain ⟨t, us, rfl, kind⟩ := printed_starts arg (by simp)
  have notStar : t.kind ≠ .star := by
    intro star
    simp [star, startKinds] at kind
  have notColon : t.kind ≠ .colon := by
    intro colon
    simp [colon, startKinds] at kind
  rw [List.cons_append] at parsed
  simp only [parseArg, List.cons_append, at_cons, beq_eq_false_iff_ne.mpr notStar,
    beq_eq_false_iff_ne.mpr notColon, Bool.false_and, Bool.false_eq_true, if_false, parsed,
    Option.getD_some]

theorem last_arg_reads (arg : Prints (.level 1) d [e] ts next) (closes : next.kind = .rParen)
    (reads : Reads (callsAt left) [e] ts next (.level 1)) :
    Reads (callsAt (left + 1)) [e] ts next .args := by
  intro name fuel rest errs enough
  have weak : precOf (infixOp next) = 0 := by simp [infixOp, closes, precOf]
  have parsed := arg_read arg weak reads name rest errs
  obtain ⟨t, us, rfl, kind⟩ := printed_starts arg (by simp)
  cases fuel with
  | zero => simp at enough
  | succ fuel =>
    rw [parseArgs, parsed]
    simp [closes, dropPlusList]

variable {ts₁ ts₂ : List Token}

theorem more_args_read {comma : Token} (arg : Prints (.level 1) d [e] ts₁ comma)
    (isComma : comma.kind = .comma)
    (first : Reads (callsAt left) [e] ts₁ comma (.level 1))
    (list : Reads (callsAt (left + 1)) es ts₂ next .args) :
    Reads (callsAt (left + 1)) (e :: es) (ts₁ ++ comma :: ts₂) next .args := by
  intro name fuel rest errs enough
  have weak : precOf (infixOp comma) = 0 := by simp [infixOp, isComma, precOf]
  have parsed := arg_read arg weak first name (ts₂ ++ next :: rest) errs
  cases fuel with
  | zero => simp at enough
  | succ fuel =>
    have others := list name fuel rest errs
      (by simp only [List.length_append, List.length_cons] at enough; omega)
    simp only [parseArgs, List.append_assoc, List.cons_append, parsed, at_cons, isComma,
      beq_self_eq_true, if_true, advance_append, others, dropPlusList]

theorem unlocated_reads (calls : Calls) {d : Nat} {e : Expr} {ts : List Token} {next : Token}
    (based : Prints .basic d [e] ts next) (reads : Reads calls [e] ts next .basic) :
    Reads calls [e] ts next .reference := by
  obtain ⟨name, path, args, rfl⟩ : ∃ name path args, e = .ref name path args none := by
    cases based with
    | name | called => exact ⟨_, _, _, rfl⟩
  intro e rest errs same
  obtain rfl := by simpa using same
  have parsed := reads name path args none rest errs rfl
  refine ⟨rest.length + 1, Nat.lt_succ_self _, ?_⟩
  rw [parsed]
  rfl

theorem located_reads (calls : Calls) {d : Nat} {l : Expr} {name : Bytes} {path : List Bytes}
    {args : Option (List Expr)} {ts₁ ts₂ : List Token} {arrow next : Token}
    (isArrow : arrow.kind = .arrow) (locator : Reads calls [l] ts₁ arrow .reference)
    (based : Prints .basic d [.ref name path args none] ts₂ next)
    (reads : Reads calls [.ref name path args none] ts₂ next .basic) :
    Reads calls [.ref name path args (some l)] (ts₁ ++ arrow :: ts₂) next .reference := by
  intro e rest errs same
  obtain rfl := by simpa using same
  have parsed := reads name path args (some (dropPlus l)) rest errs rfl
  obtain ⟨t, us, rfl, isWord⟩ := reference_word based (.inl rfl)
  obtain ⟨fuel, enough, before⟩ := locator l (t :: us ++ next :: rest) errs rfl
  obtain ⟨fuel, rfl⟩ : ∃ k, fuel = k + 1 := ⟨fuel - 1, by omega⟩
  refine ⟨fuel, by simp only [List.length_append, List.length_cons] at enough; omega, ?_⟩
  rw [List.cons_append] at parsed before
  rw [List.append_assoc, List.cons_append, List.cons_append, before, parseLocated]
  simp only [at_cons, isArrow, beq_self_eq_true, if_true, advance_cons, isWord, parsed, dropPlus,
    dropPlusLoc]

theorem reference_reads (calls : Calls) {d : Nat} {e : Expr} {ts : List Token} {next : Token}
    (refer : Prints .reference d [e] ts next) (follows : Follows .primary next)
    (reads : Reads calls [e] ts next .reference) : Reads calls [e] ts next .primary := by
  intro e' rest errs same
  obtain rfl := by simpa using same
  obtain ⟨fuel, _, parsed⟩ := reads e rest errs rfl
  obtain ⟨t, us, rfl, isWord⟩ := reference_word refer (.inr rfl)
  have noArrow : next.kind ≠ .arrow := by
    intro arrow
    simp [Follows, goesOn, arrow] at follows
  have stops : parseLocated calls fuel (dropPlus e) ⟨next :: rest, errs⟩ =
      (dropPlus e, ⟨next :: rest, errs⟩) := by
    cases fuel with
    | zero => rfl
    | succ fuel => simp [parseLocated, noArrow]
  rw [stops] at parsed
  simp only [List.cons_append] at parsed ⊢
  simp [parsePrimary, replicated, isWord, parsed]

theorem paren_reads {left' : Nat} {left right : Token}
    (opens : left.kind = .lParen) (inner : Prints (.level 1) d [e] ts right)
    (closes : right.kind = .rParen) (follows : Follows .primary next)
    (reads : Reads (callsAt left') [e] ts right (.level 1)) :
    Reads (callsAt (left' + 1)) [e] (left :: ts ++ [right]) next .primary := by
  intro e' rest errs same
  obtain rfl := by simpa using same
  have weak : precOf (infixOp right) = 0 := by simp [infixOp, closes, precOf]
  have parsed := expr_read reads (Nat.le_refl 1) (.inl weak) (next :: rest) errs
  -- a number alone in parentheses is replicated only before a string constant
  have single : replicated ⟨left :: (ts ++ right :: next :: rest), errs⟩ = false := by
    obtain ⟨t, us, rfl, -⟩ := printed_starts inner (by simp)
    cases us with
    | nil =>
      have after : ∀ k ∈ [Tok.charLit, .bitLit, .hexLit], (next.kind == k) = false := by
        intro k literal
        have apart := follows.1
        simp only [beq_eq_false_iff_ne]
        rintro rfl
        simp only [goesOn, List.mem_cons, List.not_mem_nil, or_false] at apart literal
        simp [literal] at apart
      simp [replicated, PState.peek, after]
    | cons u us =>
      have inside := number_first inner t u us rfl
      by_cases number : t.kind = .number
      · simp [replicated, PState.peek, inside number]
      · simp [replicated, PState.peek, number]
  simp only [List.cons_append, List.append_assoc, List.nil_append, parsePrimary, single,
    Bool.false_eq_true, if_false, at_cons, opens, beq_self_eq_true, if_true, advance_append,
    parsed, expect, closes, advance_cons]

theorem number_reads (calls : Calls) {t next : Token} (kind : t.kind = .number)
    (good : goodNumber t = true) : Reads calls [.number (.of t)] [t] next .primary := by
  intro e rest errs same
  obtain rfl := by simpa using same
  simp only [goodNumber, Bool.and_eq_true, Bool.not_eq_true'] at good
  simp [parsePrimary, replicated, kind, parseNumber, good.1, good.2, dropPlus]

theorem char_reads (calls : Calls) {t next : Token} (kind : t.kind = .charLit) :
    Reads calls [.charLit t.sval] [t] next .primary := by
  intro e rest errs same
  obtain rfl := by simpa using same
  simp [parsePrimary, replicated, kind, dropPlus]

theorem bit_reads (calls : Calls) {t next : Token} (kind : t.kind = .bitLit) :
    Reads calls [.bitLit t.sval] [t] next .primary := by
  intro e rest errs same
  obtain rfl := by simpa using same
  simp [parsePrimary, replicated, kind, dropPlus]

theorem hex_reads (calls : Calls) {t next : Token} {bytes : Bytes} (kind : t.kind = .hexLit)
    (decoded : decodeHexLiteral t.sval = .ok bytes) :
    Reads calls [.charLit bytes] [t] next .primary := by
  intro e rest errs same
  obtain rfl := by simpa using same
  simp [parsePrimary, replicated, kind, decoded, dropPlus]

theorem plain_reads (calls : Calls) {d : Nat} {e : Expr} {ts : List Token} {next : Token}
    (operand : Prints .primary d [e] ts next) (follows : Follows .unary next)
    (reads : Reads calls [e] ts next .primary) : Reads calls [e] ts next .unary := by
  intro e' rest errs same
  obtain rfl := by simpa using same
  have noPower : next.kind ≠ .power := by
    intro power
    simp [Follows, goesOn, power] at follows
  have parsed := reads e rest errs rfl
  simp [parseUnary, primary_no_prefix operand rest errs, parsePower, parsed, noPower]

theorem prefixed_reads {op : Tok}
    (spelled : spellsPrefix op t ts next) (reads : Reads (callsAt left) [e] ts next .unary) :
    Reads (callsAt (left + 1)) [.unary op e] (t :: ts) next .unary := by
  intro e' rest errs same
  obtain rfl := by simpa using same
  have parsed := unary_read reads rest errs
  have found : prefixOp ⟨t :: (ts ++ next :: rest), errs⟩ = some op := by
    rcases spelled with ⟨rfl, which⟩ | ⟨rfl, before⟩
    · rcases which with kind | kind | kind <;> simp [prefixOp, kind]
    · simp only [beforeOperand, Bool.and_eq_true, beq_iff_eq] at before
      simp only [prefixOp, at_cons, cur_cons, before.1.1, before.1.2, peek_one, before.2]
      rfl
  rw [List.cons_append, parseUnary, found]
  simp only [advance_append, parsed, dropPlus]
  split <;> rfl

theorem power_reads {a b : Expr} {op : Token}
    (base : Prints .primary d [a] ts₁ op) (isPower : op.kind = .power)
    (first : Reads (callsAt (left + 1)) [a] ts₁ op .primary)
    (exponent : Reads (callsAt left) [b] ts₂ next .unary) :
    Reads (callsAt (left + 1)) [.binary .power a b] (ts₁ ++ op :: ts₂) next .unary := by
  intro e rest errs same
  obtain rfl := by simpa using same
  have parsed := first a (ts₂ ++ next :: rest) errs rfl
  have second := unary_read exponent rest errs
  rw [List.append_assoc, List.cons_append, parseUnary, primary_no_prefix base]
  simp only [parsePower, parsed, at_cons, isPower, beq_self_eq_true, if_true, advance_append,
    second, Option.map_some, dropPlus]

theorem tight_reads (reads : Reads (callsAt left) [e] ts next .unary) :
    Reads (callsAt (left + 1)) [e] ts next (.level 7) := by
  intro e' minPrec rest errs same _
  obtain rfl := by simpa using same
  refine ⟨rest.length + 1, Nat.lt_succ_self _, ?_⟩
  rw [parseExpr, unary_read reads]
  rfl

theorem infixed_reads {a b : Expr} {op : Token} (level : precOf (infixOp op) = p) (binds : 0 < p)
    (first : Reads (callsAt (left + 1)) [a] ts₁ op (.level p))
    (right : Prints (.level (p + 1)) d [b] ts₂ next)
    (second : Reads (callsAt left) [b] ts₂ next (.level (p + 1)))
    (follows : Follows (.level p) next) :
    Reads (callsAt (left + 1)) [.binary (infixOp op) a b] (ts₁ ++ op :: ts₂) next
      (.level p) := by
  intro e minPrec rest errs same low
  obtain rfl := by simpa using same
  obtain ⟨fuel, enough, before⟩ := first a minPrec (ts₂ ++ next :: rest) errs rfl low
  obtain ⟨fuel, rfl⟩ : ∃ k, fuel = k + 1 := ⟨fuel - 1, by omega⟩
  have weak : precOf (infixOp next) < p + 1 := Nat.lt_succ_of_le (level_le_iff.mp follows.2)
  have operand := expr_read second (Nat.le_refl _) (.inr weak) rest errs
  refine ⟨fuel, ?_, ?_⟩
  · obtain ⟨t, us, rfl, -⟩ := printed_starts right (by simp)
    simp only [List.length_append, List.length_cons] at enough
    omega
  · rw [List.append_assoc, List.cons_append, before, loop_goes _ level binds low operand]
    rfl

theorem printing_read (printed : Prints nt d es ts next) (follows : Follows nt next) :
    ∀ left, d ≤ left → Reads (callsAt left) es ts next nt := by
  induction printed with
  | number kind good => exact fun left _ => number_reads _ kind good
  | charLit kind => exact fun left _ => char_reads _ kind
  | bitLit kind => exact fun left _ => bit_reads _ kind
  | hexLit kind decoded => exact fun left _ => hex_reads _ kind decoded
  | name kind members => exact fun left _ => name_reads _ members follows
  | called kind members₁ opens list closes members₂ ih =>
    intro left depth
    exact called_reads _ members₁ opens (ih ⟨by simp [goesOn], closes⟩ left depth) members₂ follows
  | noArgs => exact fun left _ => no_args_read _ follows.2
  | someArgs list ih =>
    intro left depth
    exact some_args_read _ list follows.2 (ih ⟨by simp [goesOn], follows.2⟩ left depth)
  | lastArg arg ih =>
    intro left depth
    obtain ⟨left, rfl⟩ : ∃ k, left = k + 1 := ⟨left - 1, by omega⟩
    exact last_arg_reads arg follows.2 (ih (close_follows 1 (.inl follows.2)) left (by omega))
  | moreArgs arg isComma list first others =>
    intro left depth
    obtain ⟨left, rfl⟩ : ∃ k, left = k + 1 := ⟨left - 1, by omega⟩
    exact more_args_read arg isComma (first (close_follows 1 (.inr isComma)) left (by omega))
      (others follows (left + 1) (by omega))
  | unlocated based ih =>
    intro left depth
    exact unlocated_reads _ based (ih follows left depth)
  | located locator isArrow based first second =>
    intro left depth
    exact located_reads _ isArrow (first ⟨by simp [goesOn, isArrow], trivial⟩ left (by omega))
      based (second follows left (by omega))
  | reference refer plain ih =>
    intro left depth
    have after : Follows .reference _ := follows_narrower follows (by simp [goesOn]) (by simp)
    exact reference_reads _ refer follows (ih after left depth)
  | paren opens inner closes ih =>
    intro left depth
    obtain ⟨left, rfl⟩ : ∃ k, left = k + 1 := ⟨left - 1, by omega⟩
    exact paren_reads opens inner closes follows
      (ih (close_follows 1 (.inl closes)) left (by omega))
  | plain operand ih =>
    intro left depth
    have after : Follows .primary _ := follows_narrower follows (by simp [goesOn]) (by simp)
    exact plain_reads _ operand follows (ih after left depth)
  | prefixed spelled operand ih =>
    intro left depth
    obtain ⟨left, rfl⟩ : ∃ k, left = k + 1 := ⟨left - 1, by omega⟩
    exact prefixed_reads spelled (ih follows left (by omega))
  | power base isPower exponent first second =>
    intro left depth
    obtain ⟨left, rfl⟩ : ∃ k, left = k + 1 := ⟨left - 1, by omega⟩
    exact power_reads base isPower
      (first ⟨by simp [goesOn, isPower], trivial⟩ (left + 1) (by omega))
      (second follows left (by omega))
  | tight operand ih =>
    intro left depth
    obtain ⟨left, rfl⟩ : ∃ k, left = k + 1 := ⟨left - 1, by omega⟩
    have after : Follows .unary _ := follows_narrower follows (by simp [goesOn]) (by simp)
    exact tight_reads (ih after left (by omega))
  | loose tighter ih =>
    intro left depth e minPrec rest errs same low
    exact ih (follows_level_succ follows) left depth e minPrec rest errs same
      (Nat.le_succ_of_le low)
  | infixed first spelled right ih₁ ih₂ =>
    intro left depth
    obtain ⟨left, rfl⟩ : ∃ k, left = k + 1 := ⟨left - 1, by omega⟩
    have operand := ih₁ (operator_follows spelled) (left + 1) (by omega)
    obtain ⟨rfl, level, binds⟩ := spells_iff.mp spelled
    exact infixed_reads level binds operand right
      (ih₂ (follows_level_succ follows) left (by omega)) follows

theorem loosened (k : Nat) (one : ∃ e, es = [e]) (printed : Prints (.level (p + k)) d es ts next) :
    Prints (.level p) d es ts next := by
  obtain ⟨e, rfl⟩ := one
  induction k with
  | zero => exact printed
  | succ k ih => exact ih (.loose printed)

theorem level_of_unary (low : p ≤ 7)
    (printed : Prints .unary d [e] ts next) : Prints (.level p) (d + 1) [e] ts next := by
  refine loosened (7 - p) ⟨e, rfl⟩ ?_
  rw [Nat.add_sub_cancel' low]
  exact .tight printed

def symbol (k : Tok) : Token := Token.fresh k ⟨1, 1⟩

theorem level_read (printed : Prints (.level 1) d [e] ts next) (ends : Follows (.level 0) next)
    (depth : d ≤ left) (rest : List Token) (errs : List Diag) :
    (callsAt (left + 1)).expr 1 ⟨ts ++ next :: rest, errs⟩ =
      (some (dropPlus e), ⟨next :: rest, errs⟩) := by
  have reads := printing_read printed (follows_level_succ ends) left depth
  have weak := Nat.le_zero.mp (level_le_iff.mp ends.2)
  exact expr_read reads (Nat.le_refl 1) (.inl weak) rest errs

/-- An expression of a depth the parser admits comes back, but for its prefix plus signs,
    and exactly its tokens are gone. -/
theorem expression_read_back (d : Nat) (e : Expr) (ts : List Token) (next : Token)
    (rest : List Token) (errs : List PliLexer.Diag) (printed : Prints (.level 1) d [e] ts next)
    (ends : Follows (.level 0) next) (depth : d < kMaxExprDepth) :
    parse ⟨ts ++ next :: rest, errs⟩ = (some (dropPlus e), ⟨next :: rest, errs⟩) :=
  level_read printed ends (Nat.le_sub_one_of_lt depth) rest errs

def named (s : String) : Token := { Token.fresh .word ⟨1, 1⟩ with text := word s }

def varRef (s : String) : Expr := .ref (word s) [] none none

theorem variable_prints {s : String} (plain : word s ≠ word "NOT") :
    Prints .primary 0 [varRef s] [named s] next := by
  have name : Prints .basic 0 [varRef s] [named s] next := .name (t := named s) rfl .nil
  refine .reference (.unlocated name) ?_
  simp [beforeOperand, named, plain]

theorem semi_ends : Follows (.level 0) (symbol .semi) := ⟨by decide, level_le_iff.mpr (by decide)⟩

/-- -A ** B + C, read before a semicolon. -/
theorem sum_read_back :
    parse ⟨[symbol .minus, named "A", symbol .power, named "B", symbol .plus, named "C",
        symbol .semi], []⟩ =
      (some (.binary .plus (.unary .minus (.binary .power (varRef "A") (varRef "B")))
        (varRef "C")), ⟨[symbol .semi], []⟩) := by
  have base : Prints .primary 0 [varRef "A"] [named "A"] (symbol .power) :=
    variable_prints (by decide)
  have second : Prints .primary 0 [varRef "B"] [named "B"] (symbol .plus) :=
    variable_prints (by decide)
  have power := Prints.power base rfl (.plain second)
  have minus : Prints .unary 2
      [.unary .minus (.binary .power (varRef "A") (varRef "B"))] _ (symbol .plus) :=
    .prefixed (t := symbol .minus) (.inl ⟨rfl, by simp⟩) power
  have other : Prints .primary 0 [varRef "C"] [named "C"] (symbol .semi) :=
    variable_prints (by decide)
  have spelled : Spells (symbol .plus) .plus 5 := ⟨(5, .plus, none), by decide, rfl, rfl, .inl rfl⟩
  have sum := Prints.infixed (level_of_unary (p := 5) (by omega) minus) spelled
    (level_of_unary (by omega) (.plain other))
  exact expression_read_back 3 _ _ (symbol .semi) [] [] (loosened 4 ⟨_, rfl⟩ sum) semi_ends
    (by decide)

theorem plus_prints :
    Prints (.level 1) 2 [.unary .plus (varRef "A")] [symbol .plus, named "A"] (symbol .semi) :=
  level_of_unary (by omega) (.prefixed (t := symbol .plus) (.inl ⟨rfl, .inl rfl⟩)
    (.plain (variable_prints (by decide))))

/-- +A comes back as A. -/
theorem plus_not_kept : ∃ d ts,
    Prints (.level 1) d [.unary .plus (varRef "A")] ts (symbol .semi) ∧ d < kMaxExprDepth ∧
      (parse ⟨ts ++ [symbol .semi], []⟩).1 ≠ some (.unary .plus (varRef "A")) := by
  refine ⟨2, [symbol .plus, named "A"], plus_prints, by decide, ?_⟩
  have parsed : (parse ⟨[symbol .plus, named "A"] ++ [symbol .semi], []⟩).1 =
      some (varRef "A") := rfl
  rw [parsed]
  simp [varRef]

/-- The grammar is unambiguous at every depth: one token list starts with one expression. -/
theorem expression_unambiguous {d₁ d₂ : Nat} {e₁ e₂ : Expr} {ts₁ ts₂ : List Token}
    {next₁ next₂ : Token} (rest₁ rest₂ : List Token) (first : Prints (.level 1) d₁ [e₁] ts₁ next₁)
    (second : Prints (.level 1) d₂ [e₂] ts₂ next₂) (ends₁ : Follows (.level 0) next₁)
    (ends₂ : Follows (.level 0) next₂) (same : ts₁ ++ next₁ :: rest₁ = ts₂ ++ next₂ :: rest₂) :
    ts₁ = ts₂ ∧ dropPlus e₁ = dropPlus e₂ := by
  have read₁ := level_read first ends₁ (Nat.le_max_left d₁ d₂) rest₁ []
  have read₂ := level_read second ends₂ (Nat.le_max_right d₁ d₂) rest₂ []
  rw [same, read₂] at read₁
  simp only [Prod.mk.injEq, Option.some.injEq, PState.mk.injEq, and_true] at read₁
  obtain ⟨trees, tails⟩ := read₁
  rw [tails] at same
  exact ⟨List.append_cancel_right same, trees.symm⟩

/-- A & NOT (B || C), with the word NOT. -/
theorem not_unambiguous :
    let ts := [named "A", symbol .amp, named "NOT", symbol .lParen, named "B", symbol .concat,
      named "C", symbol .rParen]
    let e := Expr.binary .amp (varRef "A")
      (.unary .not (.binary .concat (varRef "B") (varRef "C")))
    ts = ts ∧ dropPlus e = dropPlus e := by
  have first : Prints .primary 0 [varRef "A"] [named "A"] (symbol .amp) :=
    variable_prints (by decide)
  have second : Prints .primary 0 [varRef "B"] [named "B"] (symbol .concat) :=
    variable_prints (by decide)
  have third : Prints .primary 0 [varRef "C"] [named "C"] (symbol .rParen) :=
    variable_prints (by decide)
  have concat : Spells (symbol .concat) .concat 4 :=
    ⟨(4, .concat, "CAT"), by decide, rfl, rfl, .inl rfl⟩
  have inner := Prints.infixed (level_of_unary (by omega) (.plain second)) concat
    (level_of_unary (by omega) (.plain third))
  have group : Prints .primary _ _ (symbol .lParen :: _ ++ [_]) (symbol .semi) := .paren rfl
    (loosened 3 ⟨_, rfl⟩ inner) rfl
  have negated : Prints .unary _ [.unary .not _] (named "NOT" :: _) _ :=
    .prefixed (.inr ⟨rfl, by decide⟩)
    (.plain group)
  have amp : Spells (symbol .amp) .amp 2 := ⟨(2, .amp, "AND"), by decide, rfl, rfl, .inl rfl⟩
  have both := Prints.infixed (level_of_unary (by omega) (.plain first)) amp
    (level_of_unary (by omega) negated)
  have printed := loosened 1 ⟨_, rfl⟩ both
  exact expression_unambiguous [] [] printed printed semi_ends semi_ends rfl

end PliParser
