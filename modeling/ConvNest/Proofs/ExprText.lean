/-
# The text of an expression determines it

Terms of linear forms are merged by their text, so it matters that different terms have different
texts.  A text is read back in two steps: `lexemes` cuts it at blanks and parentheses, and `read`
goes over the pieces from left to right and keeps the sum and the product that it is in.

Not every expression is read back as it was: `l + m * 3 * (-1)` and `l + m * (-3)` are both written
`l - m * 3`, and read as the second.  `respelled` is the expression that is read (`read_text`).  It
is the expression itself unless there are products by `-1` of what is itself a multiple, which
`Legible` leaves out.  So the texts of legible expressions differ (`text_injective`).
-/
import ConvNest.Affine.Linear
import Mathlib.Tactic.SplitIfs

namespace ConvNest.Affine

open List

variable {c : Char} {w : List Char} {a b s : String} {e x y : Expr}

/-! ## 1. Pieces of a text -/

/-- A piece, if there is one. -/
def piece : List Char → List (List Char)
  | [] => []
  | c :: cs => [c :: cs]

/-- The pieces of a text that are separated by blanks; a parenthesis is a piece of its own.  `word`
is the piece that has been begun. -/
def lexemesFrom (word : List Char) : List Char → List (List Char)
  | [] => piece word
  | c :: cs =>
    if c = ' ' then piece word ++ lexemesFrom [] cs
    else if c = '(' ∨ c = ')' then piece word ++ [c] :: lexemesFrom [] cs
    else lexemesFrom (word ++ [c]) cs

/-- The pieces of a text. -/
def lexemes (s : String) : List (List Char) := lexemesFrom [] s.toList

theorem lexemesFrom_blank (word cs ds : List Char) :
    lexemesFrom word (cs ++ ' ' :: ds) = lexemesFrom word cs ++ lexemesFrom [] ds := by
  induction cs generalizing word with
  | nil => simp [lexemesFrom]
  | cons c cs ih =>
    simp only [cons_append, lexemesFrom, ih]
    split_ifs <;> simp

theorem lexemesFrom_paren {p : Char} (hp : p = '(' ∨ p = ')') (word cs ds : List Char) :
    lexemesFrom word (cs ++ p :: ds) = lexemesFrom word cs ++ [p] :: lexemesFrom [] ds := by
  induction cs generalizing word with
  | nil =>
    have hblank : p ≠ ' ' := by rcases hp with rfl | rfl <;> decide
    simp [lexemesFrom, hblank, hp]
  | cons c cs ih =>
    simp only [cons_append, lexemesFrom, ih]
    split_ifs <;> simp

/-- Characters that do not end a piece. -/
def Inner (c : Char) : Prop := c ≠ ' ' ∧ c ≠ '(' ∧ c ≠ ')'

instance (c : Char) : Decidable (Inner c) := inferInstanceAs (Decidable (_ ∧ _))

theorem inner_of_all {cs : List Char} (h : cs.all (fun c => decide (Inner c)) = true) :
    ∀ c ∈ cs, Inner c := by
  simpa using h

theorem lexemesFrom_inner {word cs : List Char} (h : ∀ c ∈ cs, Inner c) :
    lexemesFrom word cs = piece (word ++ cs) := by
  induction cs generalizing word with
  | nil => simp [lexemesFrom]
  | cons c cs ih =>
    obtain ⟨h₁, h₂, h₃⟩ := h c mem_cons_self
    rw [lexemesFrom, if_neg h₁, if_neg (by simp [h₂, h₃]),
      ih fun d hd => h d (mem_cons_of_mem c hd)]
    simp

/-! ## 2. Words -/

/-- The number that a piece stands for. -/
def readInt : List Char → Int
  | '-' :: ds => -(Nat.ofDigitChars 10 ds 0 : Int)
  | ds => Nat.ofDigitChars 10 ds 0

/-- The expression that a piece stands for. -/
def readAtom : List Char → Expr
  | 'd' :: cs => .dim (Int64.ofInt (readInt cs))
  | 's' :: cs => .sym (Int64.ofInt (readInt cs))
  | cs => .const (Int64.ofInt (readInt cs))

theorem Inner.of_isDigit (h : c.isDigit = true) : Inner c := by
  refine ⟨?_, ?_, ?_⟩ <;> rintro rfl <;> exact absurd h (by decide)

theorem isDigit_of_mem_repr {n : Nat} (h : c ∈ n.repr.toList) : c.isDigit = true := by
  rw [Nat.toList_repr] at h
  exact Nat.isDigit_of_mem_toDigits (by decide) (by decide) h

/-- A number is written as a digit followed by digits, after a sign if it is negative. -/
theorem toList_word (n : Int64) : ∃ c cs, (Text.word n).toList = c :: cs ∧
    (c = '-' ∨ c.isDigit = true) ∧ (∀ d ∈ cs, d.isDigit = true) := by
  rw [Text.word]
  cases n.toInt with
  | ofNat m =>
    have hrepr : (toString (Int.ofNat m)).toList = m.repr.toList := rfl
    obtain ⟨c, cs, hcs⟩ := exists_cons_of_ne_nil
      (show m.repr.toList ≠ [] by simp)
    have hdigit (d : Char) (hd : d ∈ c :: cs) : d.isDigit = true := isDigit_of_mem_repr (hcs ▸ hd)
    exact ⟨c, cs, hrepr.trans hcs, .inr (hdigit c mem_cons_self),
      fun d hd => hdigit d (mem_cons_of_mem c hd)⟩
  | negSucc m =>
    refine ⟨'-', m.succ.repr.toList, ?_, .inl rfl, fun d => isDigit_of_mem_repr⟩
    exact String.toList_append

theorem inner_of_mem_word {n : Int64} (h : c ∈ (Text.word n).toList) : Inner c := by
  obtain ⟨d, ds, heq, hd, hds⟩ := toList_word n
  rw [heq, mem_cons] at h
  rcases h with rfl | h
  · rcases hd with rfl | hd
    · exact ⟨by decide, by decide, by decide⟩
    · exact .of_isDigit hd
  · exact .of_isDigit (hds c h)

theorem readInt_of_digits {ds : List Char} (h : ∀ d ∈ ds, d.isDigit = true) :
    readInt ds = Nat.ofDigitChars 10 ds 0 := by
  cases ds with
  | nil => rfl
  | cons d ds =>
    have hd : d ≠ '-' := by
      rintro rfl
      exact absurd (h '-' mem_cons_self) (by decide)
    simp [readInt, hd]

theorem readInt_repr (n : Nat) : readInt n.repr.toList = n := by
  rw [readInt_of_digits fun d => isDigit_of_mem_repr, Nat.toList_repr,
    Nat.ofDigitChars_ten_toDigits]

theorem readInt_word (n : Int64) : Int64.ofInt (readInt (Text.word n).toList) = n := by
  suffices readInt (Text.word n).toList = n.toInt by rw [this, Int64.ofInt_toInt]
  rw [Text.word]
  cases n.toInt with
  | ofNat m => exact readInt_repr m
  | negSucc m =>
    have htext : (toString (Int.negSucc m)).toList = '-' :: m.succ.repr.toList :=
      String.toList_append
    have hread := readInt_repr m.succ
    rw [readInt_of_digits fun d => isDigit_of_mem_repr] at hread
    rw [htext, readInt, hread]
    rfl

/-! ## 3. Reading from left to right -/

/-- The difference as it is read: a multiple is subtracted by changing the sign of its factor. -/
def minus (l : Expr) : Expr → Expr
  | .const c => .add l (.const (-c))
  | .binary .mul m (.const c) => .add l (.mul m (.const (-c)))
  | m => .add l (.mul m (.const (-1)))

/-- The state of a reader.  `total` gives the sum, once the product that is being read is known, and
`product` the product, once the next factor is.  `outer` holds both for each open parenthesis. -/
inductive Reader where
  /-- A factor comes next. -/
  | before (outer : List ((Expr → Expr) × (Expr → Expr))) (total product : Expr → Expr)
  /-- A factor has been read, and with it the product so far. -/
  | after (outer : List ((Expr → Expr) × (Expr → Expr))) (total : Expr → Expr) (product : Expr)

/-- Reads one piece. -/
def Reader.step (w : List Char) : Reader → Option Reader
  | before outer total product =>
    if w = ['('] then some (before ((total, product) :: outer) id id)
    else some (after outer total (product (readAtom w)))
  | after outer total x =>
    if w = "+".toList then some (before outer (.add (total x)) id)
    else if w = "-".toList then some (before outer (minus (total x)) id)
    else if w = "*".toList then some (before outer total (.mul x))
    else if w = "floordiv".toList then some (before outer total (.binary .floordiv x))
    else if w = "mod".toList then some (before outer total (.binary .mod x))
    else match outer with
      | [] => none
      | (t, p) :: outer => some (after outer t (p (total x)))

/-- Reads pieces, one after the other. -/
def Reader.steps (ws : List (List Char)) (r : Reader) : Option Reader :=
  ws.foldlM (fun r w => r.step w) r

/-- What has been read, at the end. -/
def Reader.finish : Reader → Option Expr
  | after [] total x => some (total x)
  | _ => none

/-- The expression that a text stands for. -/
def read (s : String) : Option Expr :=
  ((Reader.before [] id id).steps (lexemes s)).bind Reader.finish

namespace Reader

@[simp] theorem steps_cons (w : List Char) (ws : List (List Char)) (r : Reader) :
    r.steps (w :: ws) = (r.step w).bind fun r => r.steps ws := rfl

theorem steps_append (ws vs : List (List Char)) (r : Reader) :
    r.steps (ws ++ vs) = (r.steps ws).bind fun r => r.steps vs :=
  foldlM_append

end Reader

/-! ## 4. Pieces of the texts of expressions -/

/-- A text with an operation in the middle. -/
theorem lexemes_between (hs : s.toList = ' ' :: (w ++ [' ']))
    (hw : ∀ c ∈ w, Inner c) (hne : w ≠ []) (a b : String) :
    lexemes (a ++ s ++ b) = lexemes a ++ w :: lexemes b := by
  have hpiece : lexemesFrom [] w = [w] := by
    rw [lexemesFrom_inner hw]
    cases w with
    | nil => exact absurd rfl hne
    | cons c cs => rfl
  simp only [lexemes, String.toList_append, hs, append_assoc, cons_append]
  rw [lexemesFrom_blank, nil_append, lexemesFrom_blank, hpiece]
  rfl

theorem lexemes_parens (a : String) :
    lexemes ("(" ++ a ++ ")") = ['('] :: (lexemes a ++ [[')']]) := by
  have hopen := lexemesFrom_paren (.inl rfl) [] [] (a.toList ++ [')'])
  have hclose := lexemesFrom_paren (.inr rfl) [] a.toList []
  simp only [lexemes, String.toList_append, String.reduceToList, cons_append, nil_append]
    at hopen hclose ⊢
  rw [hopen, hclose]
  simp [lexemesFrom, piece]

theorem lexemes_of_inner (h : ∀ c ∈ s.toList, Inner c) (hne : s.toList ≠ []) :
    lexemes s = [s.toList] := by
  rw [lexemes, lexemesFrom_inner h, nil_append]
  cases hs : s.toList with
  | nil => contradiction
  | cons c cs => rfl

/-- An expression that is not an operation is written as one piece, from which it can be read. -/
theorem lexemes_atom (h : e.isBinary = false) :
    ∃ w, lexemes e.text = [w] ∧ w ≠ ['('] ∧ readAtom w = e := by
  have hletter (c : Char) (hc : Inner c) (p : Int64) (s : String)
    (hs : s.toList = c :: (Text.word p).toList) :
      lexemes s = [c :: (Text.word p).toList] := by
    rw [← hs]
    refine lexemes_of_inner (fun d hd => ?_) (by simp [hs])
    rw [hs, mem_cons] at hd
    rcases hd with rfl | hd
    · exact hc
    · exact inner_of_mem_word hd
  cases e with
  | dim p =>
    refine ⟨_, hletter 'd' ⟨by decide, by decide, by decide⟩ p _ String.toList_append, by simp, ?_⟩
    rw [readAtom, readInt_word]
  | sym p =>
    refine ⟨_, hletter 's' ⟨by decide, by decide, by decide⟩ p _ String.toList_append, by simp, ?_⟩
    rw [readAtom, readInt_word]
  | const c =>
    obtain ⟨d, ds, heq, hd, -⟩ := toList_word c
    have hne : (Text.word c).toList ≠ [] := heq ▸ cons_ne_nil d ds
    refine ⟨(Text.word c).toList, lexemes_of_inner (fun _ => inner_of_mem_word) hne, ?_, ?_⟩
    · intro hparen
      rw [heq, List.cons.injEq] at hparen
      obtain ⟨rfl, -⟩ := hparen
      revert hd
      decide
    · have hletters : d ≠ 'd' ∧ d ≠ 's' := by
        constructor <;> rintro rfl <;> revert hd <;> decide
      have hread : readAtom (Text.word c).toList =
          .const (Int64.ofInt (readInt (Text.word c).toList)) := by
        rw [heq]
        simp [readAtom, hletters]
      rw [hread, readInt_word]
  | binary op l r => cases h

/-! ## 5. Reading undoes writing -/

namespace Expr

/-- Expressions whose texts can be read: quotients and remainders are by constants, and every
operation has a meaning. -/
def Readable : Expr → Prop
  | binary .add l r => l.Readable ∧ r.Readable
  | binary .mul l r => l.Readable ∧ r.Readable
  | binary .floordiv l r => l.Readable ∧ ∃ c, r = const c
  | binary .mod l r => l.Readable ∧ ∃ c, r = const c
  | binary .unknown _ _ => False
  | _ => True

/-- The expression that is read from the text: where a multiple is subtracted, its factor takes the
sign. -/
def respelled : Expr → Expr
  | binary .add l (const c) => add l.respelled (const c)
  | binary .add l (binary .mul m (const c)) =>
    if c = -1 then minus l.respelled m.respelled else add l.respelled (mul m.respelled (const c))
  | binary .add l r => add l.respelled r.respelled
  | binary .mul l r => mul l.respelled r.respelled
  | binary .floordiv l r => binary .floordiv l.respelled r
  | binary .mod l r => binary .mod l.respelled r
  | e => e

theorem respelled_of_atom {e : Expr} (h : e.isBinary = false) : e.respelled = e := by
  cases e with
  | binary op l r => cases h
  | _ => rfl

/-- Whether the expression is read as a multiple, whose factor takes the sign. -/
def isMultiple : Expr → Bool
  | const _ => true
  | binary .mul _ (const _) => true
  | _ => false

/-- Expressions that can be told by their texts. -/
def Legible : Expr → Prop
  | binary .add l r => l.Legible ∧ r.Legible ∧ ∀ m, r = mul m (const (-1)) → m.isMultiple = false
  | binary .mul l r => l.Legible ∧ r.Legible
  | binary .floordiv l r => l.Legible ∧ ∃ c, r = const c
  | binary .mod l r => l.Legible ∧ ∃ c, r = const c
  | binary .unknown _ _ => False
  | _ => True

end Expr

theorem minus_neg_const (l : Expr) (c : Int64) : minus l (.const (-c)) = .add l (.const c) := by
  simp [minus]

theorem minus_mul_neg_const (l m : Expr) (c : Int64) :
    minus l (.mul m (.const (-c))) = .add l (.mul m (.const c)) := by
  simp [minus, Expr.mul]

theorem minus_of_not_multiple (l : Expr) {m : Expr} (h : m.isMultiple = false) :
    minus l m = .add l (.mul m (.const (-1))) := by
  unfold minus
  split <;> simp_all [Expr.isMultiple]

/-- The text is read as a product of its own. -/
def ReadsProduct (s : String) (e : Expr) : Prop := ∀ outer total,
  (Reader.before outer total id).steps (lexemes s) = some (.after outer total e)

/-- The text is read as a sum of its own. -/
def ReadsSum (s : String) (e : Expr) : Prop := ∀ outer, ∃ total x, total x = e ∧
  (Reader.before outer id id).steps (lexemes s) = some (.after outer total x)

/-- The text is read as a factor. -/
def ReadsFactor (s : String) (e : Expr) : Prop := ∀ outer total product,
  (Reader.before outer total product).steps (lexemes s) = some (.after outer total (product e))

theorem ReadsProduct.sum (h : ReadsProduct s e) : ReadsSum s e :=
  fun outer => ⟨id, e, rfl, h outer id⟩

theorem ReadsFactor.product (h : ReadsFactor s e) : ReadsProduct s e :=
  fun outer total => h outer total id

/-- A sum between parentheses is a factor. -/
theorem ReadsSum.parens (h : ReadsSum s e) : ReadsFactor ("(" ++ s ++ ")") e := by
  intro outer total product
  obtain ⟨t, x, rfl, hsteps⟩ := h ((total, product) :: outer)
  have hopen : (Reader.before outer total product).step ['('] =
      some (.before ((total, product) :: outer) id id) := by simp [Reader.step]
  have hclose : (Reader.after ((total, product) :: outer) t x).step [')'] =
      some (.after outer total (product (t x))) := by simp [Reader.step]
  rw [lexemes_parens, Reader.steps_cons, hopen, Option.bind_some, Reader.steps_append, hsteps,
    Option.bind_some, Reader.steps_cons, hclose]
  rfl

theorem readsFactor_atom (h : e.isBinary = false) : ReadsFactor e.text e := by
  intro outer total product
  obtain ⟨w, hw, hne, hread⟩ := lexemes_atom h
  rw [hw, Reader.steps_cons, Reader.step, if_neg hne, hread]
  rfl

theorem readsFactor_word (c : Int64) : ReadsFactor (Text.word c) (.const c) :=
  readsFactor_atom (e := .const c) rfl

/-- A factor is put between parentheses unless it is one piece. -/
theorem reads_wrap_factor (h : ReadsSum e.text e.respelled) :
    ReadsFactor (e.wrap true e.text) e.respelled := by
  cases hb : e.isBinary with
  | false =>
    have hsum : e.isSum = false := by
      cases e with
      | binary op l r => cases hb
      | _ => rfl
    rw [Expr.wrap, hsum, hb, Expr.respelled_of_atom hb]
    exact readsFactor_atom hb
  | true =>
    rw [Expr.wrap, hb]
    simpa using h.parens

/-- What begins a product is put between parentheses if it is a sum. -/
theorem reads_wrap_product (h : ReadsSum e.text x)
    (hproduct : e.isSum = false → ReadsProduct e.text x) :
    ReadsProduct (e.wrap false e.text) x := by
  cases hs : e.isSum with
  | false =>
    rw [Expr.wrap, hs]
    exact hproduct hs
  | true =>
    rw [Expr.wrap, hs]
    exact h.parens.product

section

variable {z : Expr} {f : Expr → Expr} (hs : s.toList = ' ' :: (w ++ [' '])) (hw : ∀ c ∈ w, Inner c)
  (hne : w ≠ [])

include hs hw hne

/-- An operation of products, followed by a factor. -/
theorem ReadsProduct.operation
    (hstep : ∀ outer total, (Reader.after outer total x).step w = some (.before outer total f))
    (hz : f y = z) (ha : ReadsProduct a x) (hb : ReadsFactor b y) :
    ReadsProduct (a ++ s ++ b) z := by
  intro outer total
  rw [lexemes_between hs hw hne, Reader.steps_append, ha outer total, Option.bind_some,
    Reader.steps_cons, hstep, Option.bind_some, hb outer total f, hz]

/-- A sum or difference, followed by a product. -/
theorem ReadsSum.operation
    (hstep : ∀ outer total y, total y = x →
      (Reader.after outer total y).step w = some (.before outer f id))
    (hz : f y = z) (ha : ReadsSum a x) (hb : ReadsProduct b y) : ReadsSum (a ++ s ++ b) z := by
  intro outer
  obtain ⟨t, x', hx, hsteps⟩ := ha outer
  refine ⟨f, y, hz, ?_⟩
  rw [lexemes_between hs hw hne, Reader.steps_append, hsteps, Option.bind_some, Reader.steps_cons,
    hstep outer t x' hx, Option.bind_some, hb outer f]

end

section

variable (ha : ReadsProduct a x) (hb : ReadsFactor b y)

include ha hb

theorem ReadsProduct.times :
    ReadsProduct (a ++ " * " ++ b) (.mul x y) :=
  ha.operation (w := "*".toList) rfl (inner_of_all (by decide)) (by decide) (fun _ _ => rfl) rfl hb

theorem ReadsProduct.floordiv : ReadsProduct (a ++ " floordiv " ++ b) (.binary .floordiv x y) :=
  ha.operation (w := "floordiv".toList) rfl (inner_of_all (by decide)) (by decide)
    (fun _ _ => rfl) rfl hb

theorem ReadsProduct.mod :
    ReadsProduct (a ++ " mod " ++ b) (.binary .mod x y) :=
  ha.operation (w := "mod".toList) rfl (inner_of_all (by decide)) (by decide)
    (fun _ _ => rfl) rfl hb

end

theorem ReadsSum.plus (ha : ReadsSum a x) (hb : ReadsProduct b y) :
    ReadsSum (a ++ " + " ++ b) (.add x y) :=
  ha.operation (w := "+".toList) rfl (inner_of_all (by decide)) (by decide)
    (fun _ _ _ h => h ▸ rfl) rfl hb

theorem ReadsSum.minus (ha : ReadsSum a x) (hb : ReadsProduct b y) :
    ReadsSum (a ++ " - " ++ b) (minus x y) :=
  ha.operation (w := "-".toList) rfl (inner_of_all (by decide)) (by decide)
    (fun _ _ _ h => h ▸ rfl) rfl hb

/-- An expression is read from its text as a sum, and as a product unless it is a sum. -/
theorem reads_text (e : Expr) (h : e.Readable) :
    ReadsSum e.text e.respelled ∧ (e.isSum = false → ReadsProduct e.text e.respelled) := by
  have ofProduct {e : Expr} (hp : ReadsProduct e.text e.respelled) :
      ReadsSum e.text e.respelled ∧ (e.isSum = false → ReadsProduct e.text e.respelled) :=
      ⟨hp.sum, fun _ => hp⟩
  have ofSum {l r : Expr}
    (hs : ReadsSum (Expr.binary .add l r).text (Expr.binary .add l r).respelled) :
      ReadsSum (Expr.binary .add l r).text (Expr.binary .add l r).respelled ∧
      ((Expr.binary .add l r).isSum = false →
        ReadsProduct (Expr.binary .add l r).text (Expr.binary .add l r).respelled) :=
    ⟨hs, nofun⟩
  induction e using Expr.text.induct with
  | case1 p => exact ofProduct (readsFactor_atom rfl).product
  | case2 p => exact ofProduct (readsFactor_atom rfl).product
  | case3 c => exact ofProduct (readsFactor_atom rfl).product
  | case4 l c hc ih =>
    -- a negative constant
    refine ofSum ?_
    rw [Expr.text, if_pos hc, Expr.respelled, ← minus_neg_const]
    exact (ih h.1).1.minus (readsFactor_word (-c)).product
  | case5 l c hc ih =>
    refine ofSum ?_
    rw [Expr.text, if_neg hc]
    exact (ih h.1).1.plus (readsFactor_word c).product
  | case6 l m ihl ihm =>
    -- a product by `-1`
    refine ofSum ?_
    obtain ⟨hs, hp⟩ := ihm h.2.1
    exact (ihl h.1).1.minus (reads_wrap_product hs hp)
  | case7 l m c hc hneg ihl ihm =>
    -- a product by another negative constant
    refine ofSum ?_
    obtain ⟨hs, hp⟩ := ihm h.2.1
    rw [Expr.text, if_neg hc, if_pos hneg, Expr.respelled, if_neg hc, ← minus_mul_neg_const]
    have hread := (ihl h.1).1.minus ((reads_wrap_product hs hp).times (readsFactor_word (-c)))
    simpa [String.append_assoc] using hread
  | case8 l m c hc hneg ihl ihm =>
    refine ofSum ?_
    obtain ⟨hs, hp⟩ := ihm h.2.1
    rw [Expr.text, if_neg hc, if_neg hneg, Expr.respelled, if_neg hc]
    exact (ihl h.1).1.plus ((reads_wrap_product hs hp).times (readsFactor_word c))
  | case9 l r hconst hmul ihl ihr =>
    refine ofSum ?_
    obtain ⟨hs, hp⟩ := ihr h.2
    rw [Expr.text, Expr.respelled]
    · exact (ihl h.1).1.plus (reads_wrap_product hs hp)
    · exact hconst
    · exact hmul
    · exact hconst
    · exact hmul
  | case10 l r ihl ihr =>
    refine ofProduct ?_
    obtain ⟨hs, hp⟩ := ihl h.1
    exact (reads_wrap_product hs hp).times (reads_wrap_factor (ihr h.2).1)
  | case11 l r ihl ihr =>
    refine ofProduct ?_
    obtain ⟨hs, hp⟩ := ihl h.1
    obtain ⟨c, rfl⟩ := h.2
    exact (reads_wrap_product hs hp).floordiv (readsFactor_word c)
  | case12 l r ihl ihr =>
    refine ofProduct ?_
    obtain ⟨hs, hp⟩ := ihl h.1
    obtain ⟨c, rfl⟩ := h.2
    exact (reads_wrap_product hs hp).mod (readsFactor_word c)
  | case13 l r => exact h.elim

/-- **A text is read as the expression it was written for**, but for the spelling. -/
theorem read_text (h : e.Readable) : read e.text = some e.respelled := by
  obtain ⟨total, x, hx, hsteps⟩ := (reads_text e h).1 []
  rw [read, hsteps, ← hx]
  rfl

/-- Expressions of one text have one spelling. -/
theorem respelled_eq_of_text {f : Expr} (he : e.Readable) (hf : f.Readable) (h : e.text = f.text) :
    e.respelled = f.respelled :=
  Option.some.inj (by rw [← read_text he, ← read_text hf, h])

namespace Expr

theorem Legible.readable {e : Expr} (h : e.Legible) : e.Readable := by
  induction e with
  | binary op l r ihl ihr =>
    cases op with
    | add => exact ⟨ihl h.1, ihr h.2.1⟩
    | mul => exact ⟨ihl h.1, ihr h.2⟩
    | floordiv => exact ⟨ihl h.1, h.2⟩
    | mod => exact ⟨ihl h.1, h.2⟩
    | unknown => exact h.elim
  | _ => trivial

/-- A legible expression is spelled as it is read. -/
theorem Legible.respelled {e : Expr} (h : e.Legible) : e.respelled = e := by
  induction e using Expr.respelled.induct with
  | case1 l c ih => rw [Expr.respelled, ih h.1]; rfl
  | case2 l m ihl ihm =>
    rw [Expr.respelled, if_pos rfl, ihl h.1, ihm h.2.1.1, minus_of_not_multiple l (h.2.2 m rfl)]
    rfl
  | case3 l m c hc ihl ihm => rw [Expr.respelled, if_neg hc, ihl h.1, ihm h.2.1.1]; rfl
  | case4 l r hconst hmul ihl ihr =>
    rw [Expr.respelled, ihl h.1, ihr h.2.1]
    · rfl
    · exact hconst
    · exact hmul
  | case5 l r ihl ihr => rw [Expr.respelled, ihl h.1, ihr h.2]; rfl
  | case6 l r ihl => rw [Expr.respelled, ihl h.1]
  | case7 l r ihl => rw [Expr.respelled, ihl h.1]
  | case8 e hadd hneg hsum hmul hdiv hmod =>
    rw [Expr.respelled]
    · exact hadd
    · exact hneg
    · exact hsum
    · exact hmul
    · exact hdiv
    · exact hmod

end Expr

/-- **Legible expressions have different texts.** -/
theorem text_injective {f : Expr} (he : e.Legible) (hf : f.Legible) (h : e.text = f.text) :
    e = f := by
  rw [← he.respelled, ← hf.respelled, respelled_eq_of_text he.readable hf.readable h]

end ConvNest.Affine
