/-
# The text of a map determines its values

An expression has the value of the one that is read from its text (`eval_respelled`), so expressions
of one text have one value, however they are built.  The text of a map is cut at the characters that
do not occur in its parts: the numbers of dimensions and symbols and the texts of the results come
back (`text_parts`).  Hence maps of one text have one value (`sameText_eval`).

The text lists a name for each dimension and symbol.  It does not tell a negative number of them
from none (`sameText_of_negative`).
-/
import ConvNest.Affine.MapEval
import ConvNest.Proofs.Outcome
import ConvNest.Proofs.Simplify

namespace ConvNest.Affine

open List

/-! ## 1. Values of respelled expressions -/

variable {dims syms : List Int64} {e : Expr} {c : Char} {s : String} {xs : List String}

theorem eval_binary (op : Operation) (l r : Expr) : (Expr.binary op l r).eval dims syms =
    (l.eval dims syms).bind fun a => (r.eval dims syms).bind fun b => op.apply l r a b := by
  rw [Expr.eval]
  cases l.eval dims syms with
  | error f => rfl
  | ok a =>
    cases r.eval dims syms with
    | error f => rfl
    | ok b => cases op <;> rfl

theorem eval_add_congr (l : Expr) {x y : Expr} (h : x.eval dims syms = y.eval dims syms) :
    (Expr.add l x).eval dims syms = (Expr.add l y).eval dims syms := by
  simp only [Expr.add, eval_binary, h, Operation.apply]

/-- A difference has one value in both spellings. -/
theorem eval_minus (l m : Expr) :
    (minus l m).eval dims syms = (Expr.add l (.mul m (.const (-1)))).eval dims syms := by
  unfold minus
  split
  · refine eval_add_congr l ?_
    simp only [Expr.mul, eval_binary, Expr.eval, Except.bind, Operation.apply, Int64.mul_neg,
      Int64.mul_one]
  · next m c =>
    refine eval_add_congr l ?_
    simp only [Expr.mul, eval_binary]
    cases m.eval dims syms with
    | error f => simp only [Except.bind]
    | ok a => simp only [Expr.eval, Except.bind, Operation.apply, Int64.mul_neg, Int64.mul_one]
  · rfl

/-- **What is read from the text has the value of the expression.** -/
theorem eval_respelled (e : Expr) : e.respelled.eval dims syms = e.eval dims syms := by
  induction e using Expr.respelled.induct with
  | case1 l c ih => simp only [Expr.respelled, Expr.add, eval_binary, ih, Operation.apply]
  | case2 l m ihl ihm =>
    rw [Expr.respelled, if_pos rfl, eval_minus]
    simp only [Expr.add, Expr.mul, eval_binary, ihl, ihm, Operation.apply]
  | case3 l m c hc ihl ihm =>
    rw [Expr.respelled, if_neg hc]
    simp only [Expr.add, Expr.mul, eval_binary, ihl, ihm, Operation.apply]
  | case4 l r hconst hmul ihl ihr =>
    rw [Expr.respelled]
    · simp only [Expr.add, eval_binary, ihl, ihr, Operation.apply]
    · exact hconst
    · exact hmul
  | case5 l r ihl ihr =>
    simp only [Expr.respelled, Expr.mul, eval_binary, ihl, ihr, Operation.apply]
  | case6 l r ihl => simp only [Expr.respelled, eval_binary, ihl, Operation.apply]
  | case7 l r ihl => simp only [Expr.respelled, eval_binary, ihl, Operation.apply]
  | case8 e hadd hneg hsum hmul hdiv hmod =>
    rw [Expr.respelled]
    · exact hadd
    · exact hneg
    · exact hsum
    · exact hmul
    · exact hdiv
    · exact hmod

theorem Expr.WellFormed.readable (h : e.WellFormed) : e.Readable := by
  induction e with
  | binary op l r ihl ihr =>
    cases op with
    | add => exact ⟨ihl h.1, ihr h.2⟩
    | mul => exact ⟨ihl h.1, ihr h.2⟩
    | floordiv =>
      obtain ⟨hl, c, -, hc⟩ := h
      exact ⟨ihl hl, c, hc⟩
    | mod =>
      obtain ⟨hl, c, -, hc⟩ := h
      exact ⟨ihl hl, c, hc⟩
    | unknown => exact h.elim
  | _ => trivial

/-- Expressions of one text have one value. -/
theorem eval_eq_of_text {f : Expr} (he : e.Readable) (hf : f.Readable) (h : e.text = f.text)
    (dims syms : List Int64) : e.eval dims syms = f.eval dims syms := by
  rw [← eval_respelled e, ← eval_respelled f, respelled_eq_of_text he hf h]

/-! ## 2. Texts with separators -/

/-- A text is cut in one way at the first occurrence of a character. -/
theorem cut_unique {as bs cs ds : List Char} (ha : c ∉ as) (hb : c ∉ bs)
    (h : as ++ c :: cs = bs ++ c :: ds) :
    as = bs ∧ cs = ds := by
  rcases append_eq_append_iff.1 h with ⟨us, rfl, htail⟩ | ⟨us, rfl, htail⟩
  · cases us with
    | nil => simpa using htail
    | cons u us => simp [(List.cons.inj htail).1] at hb
  · cases us with
    | nil => simpa [eq_comm] using htail
    | cons u us => simp [(List.cons.inj htail).1] at ha

/-- Items of a list that is written with commas: not empty, and without a comma. -/
def Item (s : String) : Prop := s.toList ≠ [] ∧ ',' ∉ s.toList

theorem toList_commas_cons_cons (s t : String) (l : List String) :
    (Text.commas (s :: t :: l)).toList =
    s.toList ++ ',' :: ' ' :: (Text.commas (t :: l)).toList := by
  simp [Text.commas]

theorem toList_commas_singleton (s : String) :
    (Text.commas [s]).toList = s.toList := by simp [Text.commas]

theorem toList_commas_ne_nil (hs : Item s) (l : List String) :
    (Text.commas (s :: l)).toList ≠ [] := by
  cases l with
  | nil => simpa only [toList_commas_singleton] using hs.1
  | cons t l => simp [toList_commas_cons_cons]

/-- Items can be told from their list. -/
theorem commas_injective {ys : List String} (hx : ∀ s ∈ xs, Item s) (hy : ∀ s ∈ ys, Item s)
    (h : (Text.commas xs).toList = (Text.commas ys).toList) : xs = ys := by
  have hempty : (Text.commas []).toList = [] := by simp [Text.commas]
  induction xs generalizing ys with
  | nil =>
    cases ys with
    | nil => rfl
    | cons y ys => exact absurd (h.symm.trans hempty) (toList_commas_ne_nil (hy y mem_cons_self) ys)
  | cons x xs ih =>
    have hx₀ := hx x mem_cons_self
    cases ys with
    | nil => exact absurd (h.trans hempty) (toList_commas_ne_nil hx₀ xs)
    | cons y ys =>
      have hy₀ := hy y mem_cons_self
      rcases xs with _ | ⟨x', xs⟩ <;> rcases ys with _ | ⟨y', ys⟩
      · rw [toList_commas_singleton, toList_commas_singleton] at h
        rw [String.toList_inj.1 h]
      · rw [toList_commas_singleton, toList_commas_cons_cons] at h
        exact absurd (h ▸ by simp) hx₀.2
      · rw [toList_commas_singleton, toList_commas_cons_cons] at h
        exact absurd (h ▸ by simp) hy₀.2
      · rw [toList_commas_cons_cons, toList_commas_cons_cons] at h
        obtain ⟨hhead, htail⟩ := cut_unique hx₀.2 hy₀.2 h
        rw [String.toList_inj.1 hhead, ih (fun s hs => hx s (mem_cons_of_mem _ hs))
          (fun s hs => hy s (mem_cons_of_mem _ hs)) (List.cons.inj htail).2]

theorem mem_commas (h : c ∈ (Text.commas xs).toList) :
    c = ',' ∨ c = ' ' ∨ ∃ s ∈ xs, c ∈ s.toList := by
  induction xs with
  | nil => simp [Text.commas] at h
  | cons x xs ih =>
    cases xs with
    | nil =>
      exact .inr (.inr ⟨x, mem_cons_self, h⟩)
    | cons y ys =>
      simp only [toList_commas_cons_cons, mem_append, mem_cons] at h
      rcases h with h | h | h | h
      · exact .inr (.inr ⟨x, mem_cons_self, h⟩)
      · exact .inl h
      · exact .inr (.inl h)
      · refine (ih h).imp_right (Or.imp_right ?_)
        rintro ⟨s, hs, hc⟩
        exact ⟨s, mem_cons_of_mem _ hs, hc⟩

/-! ## 3. The parts of the text of a map -/

theorem comma_notMem_word (n : Int64) : ',' ∉ (Text.word n).toList := by
  obtain ⟨c, cs, heq, hc, hcs⟩ := toList_word n
  rw [heq, mem_cons, not_or]
  constructor
  · rintro rfl
    revert hc
    decide
  · exact fun h => absurd (hcs ',' h) (by decide)

theorem comma_notMem_wrap {strict : Bool} (h : ',' ∉ s.toList) :
    ',' ∉ (e.wrap strict s).toList := by
  rw [Expr.wrap]
  split
  · simpa using h
  · exact h

theorem comma_notMem_text (e : Expr) : ',' ∉ e.text.toList := by
  induction e using Expr.text.induct with
  | case1 p => simpa [Expr.text] using comma_notMem_word p
  | case2 p => simpa [Expr.text] using comma_notMem_word p
  | case3 c => exact comma_notMem_word c
  | case4 l c hc ih => simpa [Expr.text, hc, comma_notMem_word] using ih
  | case5 l c hc ih => simpa [Expr.text, hc, comma_notMem_word] using ih
  | case6 l m ihl ihm => simpa [Expr.text, comma_notMem_wrap ihm] using ihl
  | case7 l m c hc hneg ihl ihm =>
    simpa [Expr.text, hc, hneg, comma_notMem_word, comma_notMem_wrap ihm] using ihl
  | case8 l m c hc hneg ihl ihm =>
    simpa [Expr.text, hc, hneg, comma_notMem_word, comma_notMem_wrap ihm] using ihl
  | case9 l r hconst hmul ihl ihr =>
    rw [Expr.text]
    · simpa [comma_notMem_wrap ihr] using ihl
    · exact hconst
    · exact hmul
  | case10 l r ihl ihr => simp [Expr.text, comma_notMem_wrap ihl, comma_notMem_wrap ihr]
  | case11 l r ihl ihr => simpa [Expr.text, comma_notMem_wrap ihl] using ihr
  | case12 l r ihl ihr => simpa [Expr.text, comma_notMem_wrap ihl] using ihr
  | case13 l r => simp [Expr.text]

theorem toList_text_ne_nil (e : Expr) : e.text.toList ≠ [] := by
  induction e using Expr.text.induct with
  | case3 c =>
    obtain ⟨d, ds, heq, -⟩ := toList_word c
    rw [Expr.text, heq]
    exact cons_ne_nil d ds
  | case9 l r hconst hmul =>
    rw [Expr.text]
    · simp
    · exact hconst
    · exact hmul
  | _ => simp [Expr.text, *]

theorem item_text (e : Expr) : Item e.text := ⟨toList_text_ne_nil e, comma_notMem_text e⟩

namespace Map

variable {letter : String} {n : Int64} {m : Map} {c : Char} {xs : List Int64}

/-- The characters of a numbered name are its letter and digits. -/
theorem mem_name {k : Nat} (h : c ∈ (letter ++ Text.count k).toList) :
    c ∈ letter.toList ∨ c.isDigit = true := by
  rw [String.toList_append, mem_append] at h
  exact h.imp_right isDigit_of_mem_repr

theorem notMem_names (hc : c ∉ letter.toList) (hdigit : c.isDigit = false) (hcomma : c ≠ ',')
    (hblank : c ≠ ' ') :
    c ∉ (names letter n).toList := by
  intro h
  rcases mem_commas h with h | h | ⟨s, hs, h⟩
  · exact hcomma h
  · exact hblank h
  · obtain ⟨k, -, rfl⟩ := mem_map.1 hs
    rcases mem_name h with h | h
    · exact hc h
    · rw [hdigit] at h
      cases h

theorem names_injective (hne : letter.toList ≠ []) (hcomma : ',' ∉ letter.toList)
    {m : Int64} (hm : 0 ≤ m) (hn : 0 ≤ n) (h : (names letter m).toList = (names letter n).toList) :
    m = n := by
  have hitem (k : Nat) : Item (letter ++ Text.count k) := by
    refine ⟨by simp [hne], fun hc => ?_⟩
    rcases mem_name hc with hc | hc
    · exact hcomma hc
    · exact absurd hc (by decide)
  have hlists := commas_injective (by simp [hitem]) (by simp [hitem]) h
  have hlength := congrArg List.length hlists
  simp only [length_map, length_range] at hlength
  rw [Int64.le_iff_toInt_le] at hm hn
  change 0 ≤ m.toInt at hm
  change 0 ≤ n.toInt at hn
  exact Int64.toInt_inj.1 (by omega)

/-- The names of the symbols, which are written only if there are some. -/
def symText (m : Map) : String := if 0 < m.syms then "[" ++ names "s" m.syms ++ "]" else ""

theorem toList_text (m : Map) : m.text.toList = '(' :: ((names "d" m.dims).toList ++ ')' ::
    (m.symText.toList ++ ' ' :: '-' :: '>' :: ' ' :: '(' ::
      ((Text.commas (m.results.map Expr.text)).toList ++ [')']))) := by
  simp [text, symText]

theorem symText_cut {n : Map} (hm : 0 ≤ m.syms) (hn : 0 ≤ n.syms) {cs ds : List Char}
    (h : m.symText.toList ++ ' ' :: cs = n.symText.toList ++ ' ' :: ds) :
    m.syms = n.syms ∧ cs = ds := by
  have hclose (k : Int64) : ']' ∉ (names "s" k).toList :=
    notMem_names (by decide) (by decide) (by decide) (by decide)
  have hzero {k : Int64} (hk : 0 ≤ k) (hpos : ¬ 0 < k) : k = 0 :=
    Int64.le_antisymm (Int64.not_lt.1 hpos) hk
  unfold symText at h
  split at h <;> split at h
  · simp only [String.toList_append, String.reduceToList, cons_append, nil_append, append_assoc,
      List.cons.injEq, true_and] at h
    obtain ⟨hnames, hrest⟩ := cut_unique (hclose m.syms) (hclose n.syms) h
    exact ⟨names_injective (by decide) (by decide) hm hn hnames, (List.cons.inj hrest).2⟩
  · simp at h
  · simp at h
  · next hm' hn' => exact ⟨(hzero hm hm').trans (hzero hn hn').symm, by simpa using h⟩

/-- The numbers of dimensions and symbols and the results can be told from the text of a map. -/
theorem text_parts {n : Map} (hm : 0 ≤ m.dims ∧ 0 ≤ m.syms) (hn : 0 ≤ n.dims ∧ 0 ≤ n.syms)
    (h : m.text = n.text) :
    m.dims = n.dims ∧ m.syms = n.syms ∧ m.results.map Expr.text = n.results.map Expr.text := by
  have hclose (k : Int64) : ')' ∉ (names "d" k).toList :=
    notMem_names (by decide) (by decide) (by decide) (by decide)
  have hlist := congrArg String.toList h
  rw [toList_text, toList_text] at hlist
  obtain ⟨hdims, hlist⟩ := cut_unique (hclose m.dims) (hclose n.dims) (List.cons.inj hlist).2
  obtain ⟨hsyms, hlist⟩ := symText_cut hm.2 hn.2 hlist
  simp only [List.cons.injEq, true_and] at hlist
  refine ⟨names_injective (by decide) (by decide) hm.1 hn.1 hdims, hsyms, ?_⟩
  exact commas_injective (by simp [item_text]) (by simp [item_text]) (append_inj_left' hlist rfl)

/-! ## 4. Maps that can be built -/

theorem make_eq_ok {d s : Int64} {rs : List Expr} : make d s rs = .ok m ↔
    m = ⟨d, s, rs⟩ ∧ ∀ e ∈ rs, ∀ x ∈ e.subexprs, checkPosition d s x = .ok () := by
  rw [make, except_bind_eq_ok]
  constructor
  · rintro ⟨⟨⟩, h, hm⟩
    refine ⟨(except_pure_eq_ok.1 hm).symm, fun e he x hx => ?_⟩
    exact except_forM_eq_ok.1 h x (mem_flatMap.2 ⟨e, he, hx⟩)
  · rintro ⟨rfl, h⟩
    refine ⟨(), except_forM_eq_ok.2 fun x hx => ?_, rfl⟩
    obtain ⟨e, he, hx⟩ := mem_flatMap.1 hx
    exact h e he x hx

/-- A map that is made from expressions whose quotients are by positive constants. -/
def Made (m : Map) : Prop := make m.dims m.syms m.results = .ok m ∧ ∀ e ∈ m.results, e.WellFormed

theorem pick_of_lt {p : Int64} (hp : 0 ≤ p) (hlt : p < n) (hlen : (xs.length : Int) = n.toInt) :
    ∃ v, pick xs p = .ok v := by
  rw [Int64.le_iff_toInt_le] at hp
  rw [Int64.lt_iff_toInt_lt] at hlt
  have hzero : (0 : Int64).toInt = 0 := rfl
  have hbound : p.toInt.toNat < xs.length := by omega
  exact ⟨_, pick_eq_ok.2 ⟨hp, getElem?_eq_getElem hbound⟩⟩

theorem length_eq_of_toInt (h : (xs.length : Int) = n.toInt) : Word.length xs = n := by
  have hlt := n.toInt_lt
  rw [Word.length, ← Int64.toInt_inj, Int64.toInt_ofNat_of_lt (by omega), h]

/-- Expressions that have the same texts, one by one, have the same values. -/
theorem mapM_eval_eq_of_texts {es fs : List Expr} (he : ∀ e ∈ es, e.Readable)
    (hf : ∀ f ∈ fs, f.Readable) (h : es.map Expr.text = fs.map Expr.text) :
    es.mapM (Expr.eval dims syms) = fs.mapM (Expr.eval dims syms) := by
  induction es generalizing fs with
  | nil =>
    rw [map_nil, eq_comm, map_eq_nil_iff] at h
    rw [h]
  | cons e es ih =>
    cases fs with
    | nil => cases h
    | cons f fs =>
      obtain ⟨hhead, htail⟩ := List.cons.inj h
      rw [mapM_cons, mapM_cons,
        eval_eq_of_text (he e mem_cons_self) (hf f mem_cons_self) hhead,
        ih (fun x hx => he x (mem_cons_of_mem _ hx))
          (fun x hx => hf x (mem_cons_of_mem _ hx)) htail]

/-- The expressions of a map have values at as many dimensions and symbols as it takes. -/
theorem Made.eval_result (hm : m.Made) (hd : (dims.length : Int) = m.dims.toInt)
    (hs : (syms.length : Int) = m.syms.toInt) {e : Expr} (he : e ∈ m.results) :
    ∃ v, e.eval dims syms = .ok v := by
  have hcheck := (make_eq_ok.1 hm.1).2 e he
  refine eval_of_over (hm.2 e he) fun p => ⟨fun hp => ?_, fun hp => ?_⟩
  · have hrange := hcheck _ hp
    rw [checkPosition] at hrange
    split at hrange
    · cases hrange
    · next h =>
      rw [not_or, Int64.not_lt, Int64.not_le] at h
      exact pick_of_lt h.1 h.2 hd
  · have hrange := hcheck _ hp
    rw [checkPosition] at hrange
    split at hrange
    · cases hrange
    · next h =>
      rw [not_or, Int64.not_lt, Int64.not_le] at h
      exact pick_of_lt h.1 h.2 hs

/-- **Maps of one text have one value.**  They take the same numbers of dimensions and symbols and
have as many results.  Evaluated at that many, they have values, which are the same; at other
numbers of dimensions and symbols the complaints are the same.  So it is for expressions of one
text. -/
theorem sameText_eval :
    (∀ m n : Map, m.Made → n.Made → (0 ≤ m.dims ∧ 0 ≤ m.syms) → (0 ≤ n.dims ∧ 0 ≤ n.syms) →
      m.sameText n = true → m.dims = n.dims ∧ m.syms = n.syms ∧ m.arity = n.arity ∧
        (∀ dims syms : List Int64, (dims.length : Int) = m.dims.toInt →
          (syms.length : Int) = m.syms.toInt →
          ∃ vs, m.eval dims syms = .ok vs ∧ n.eval dims syms = .ok vs) ∧
        ∀ dims syms, (m.eval dims syms).mapError Fault.message =
          (n.eval dims syms).mapError Fault.message) ∧
    ∀ e f : Expr, e.WellFormed → f.WellFormed → e.text = f.text →
      ∀ dims syms, e.eval dims syms = f.eval dims syms := by
  refine ⟨fun m n hm hn hm₀ hn₀ h => ?_, fun e f he hf => eval_eq_of_text he.readable hf.readable⟩
  have htext : m.text = n.text := eq_of_beq h
  obtain ⟨hdims, hsyms, htexts⟩ := text_parts hm₀ hn₀ htext
  have hevals (dims syms : List Int64) :
      m.results.mapM (Expr.eval dims syms) = n.results.mapM (Expr.eval dims syms) :=
    mapM_eval_eq_of_texts (fun e he => (hm.2 e he).readable)
      (fun e he => (hn.2 e he).readable) htexts
  refine ⟨hdims, hsyms, by simpa [arity] using congrArg List.length htexts,
    fun dims syms hd hs => ?_, fun dims syms => ?_⟩
  · obtain ⟨vs, hvs⟩ := except_mapM_total fun e he => hm.eval_result hd hs he
    have hlen : Word.length dims = m.dims ∧ Word.length syms = m.syms :=
      ⟨length_eq_of_toInt hd, length_eq_of_toInt hs⟩
    refine ⟨vs, ?_, ?_⟩
    · rw [eval, if_pos hlen, hvs]
    · rw [eval, ← hdims, ← hsyms, if_pos hlen, ← hevals, hvs]
  · rw [eval, eval, ← hdims, ← hsyms, ← hevals]
    split
    · rfl
    · simp only [Except.mapError, Fault.message, htext]

/-- `(d0, d1)[s0] -> (d0 - d1 * 3, s0 mod 4)`, with the sign before the multiple or in its
factor. -/
def differences (m : Expr) : Map := ⟨2, 1, [.add (.dim 0) m, .binary .mod (.sym 0) (.const 4)]⟩

theorem differences_made {m : Expr} (hw : m.WellFormed)
    (h : ∀ x ∈ m.subexprs, checkPosition 2 1 x = .ok ()) :
    (differences m).Made := by
  refine ⟨make_eq_ok.2 ⟨rfl, ?_⟩, ?_⟩
  · simp only [differences, mem_cons, not_mem_nil, or_false, forall_eq_or_imp, forall_eq,
      Expr.add, Expr.subexprs, cons_append, nil_append]
    exact ⟨⟨rfl, rfl, h⟩, rfl, rfl, rfl⟩
  · simp only [differences, mem_cons, not_mem_nil, or_false, forall_eq_or_imp, forall_eq]
    exact ⟨⟨trivial, hw⟩, trivial, 4, by decide, rfl⟩

theorem sameText_eval_differences :
    (differences (.mul (.mul (.dim 1) (.const 3)) (.const (-1)))).sameText
      (differences (.mul (.dim 1) (.const (-3)))) = true ∧
    ∃ vs, (differences (.mul (.mul (.dim 1) (.const 3)) (.const (-1)))).eval [7, 2] [-1] = .ok vs ∧
      (differences (.mul (.dim 1) (.const (-3)))).eval [7, 2] [-1] = .ok vs := by
  have htext : (differences (.mul (.mul (.dim 1) (.const 3)) (.const (-1)))).sameText
      (differences (.mul (.dim 1) (.const (-3)))) = true := by decide +kernel
  have hbefore : (differences (.mul (.mul (.dim 1) (.const 3)) (.const (-1)))).Made :=
    differences_made ⟨⟨trivial, trivial⟩, trivial⟩
      (by simp [Expr.mul, Expr.subexprs, checkPosition])
  have hinside : (differences (.mul (.dim 1) (.const (-3)))).Made :=
    differences_made ⟨trivial, trivial⟩ (by simp [Expr.mul, Expr.subexprs, checkPosition])
  obtain ⟨-, -, -, heval, -⟩ := sameText_eval.1 _ _ hbefore hinside ⟨by decide, by decide⟩
    ⟨by decide, by decide⟩ htext
  exact ⟨htext, heval [7, 2] [-1] (by decide) (by decide)⟩

/-- A map of `-1` dimensions has the text of one without dimensions. -/
theorem sameText_of_negative :
    ∃ m n : Map, m.Made ∧ n.Made ∧ m.sameText n = true ∧ m.dims ≠ n.dims := by
  have hmade (d : Int64) : (⟨d, 0, [.const 1]⟩ : Map).Made :=
    ⟨make_eq_ok.2 ⟨rfl, by simp [Expr.subexprs, checkPosition]⟩, by simp [Expr.WellFormed]⟩
  exact ⟨⟨-1, 0, [.const 1]⟩, ⟨0, 0, [.const 1]⟩, hmade (-1), hmade 0, by decide +kernel, by decide⟩

end Map

end ConvNest.Affine
