import Mathlib.Tactic
import TraitLift.Proofs.Print.Wall
import TraitLift.Proofs.Print.Writable
import TraitLift.Proofs.Reading.Trim

/-!
The parts of a rule as they are written. What is picked of them, lists with separators and parts that may be
left out each have the text of the bricks of their trees.
-/

namespace TraitLift

open TraitLift.Grammar

/-! ### Characters of documents -/

namespace Doc

/-- The characters of a document, up to its misplaced nodes. -/
def chars (d : Doc) : List Char := d.flatMap fun
  | .text s => s.toList
  | .misplaced _ => []

theorem Writable.text_eq : ∀ {d : Doc}, d.Writable → d.text = .ok (String.ofList d.chars)
  | [], _ => rfl
  | .text s :: d, h => by
    rw [Doc.text, text_eq (d := d) fun p hp => h p (List.mem_cons_of_mem _ hp)]
    simp [chars, Except.map]
  | .misplaced m :: d, h => by
    obtain ⟨s, hs⟩ := h (.misplaced m) (List.mem_cons_self ..)
    simp at hs

@[simp]
theorem chars_nil : chars [] = [] := rfl

@[simp]
theorem chars_append (d e : Doc) : (d ++ e).chars = d.chars ++ e.chars := List.flatMap_append

@[simp]
theorem chars_str (s : String) : (str s).chars = s.toList := by
  simp [str, chars]

theorem chars_sepBy (s : String) (d : Doc) : ∀ ds : List Doc,
    (sepBy s (d :: ds)).chars = d.chars ++ ds.flatMap fun e => s.toList ++ e.chars
  | [] => by simp [sepBy]
  | e :: ds => by
    rw [sepBy, chars_append, chars_append, chars_str, chars_sepBy s e ds, List.flatMap_cons,
      List.append_assoc, List.append_assoc]
    simp

theorem chars_sepBy_append (s : String) {ds : List Doc} (hds : ds ≠ []) (e : Doc) :
    (sepBy s (ds ++ [e])).chars = (sepBy s ds).chars ++ (s.toList ++ e.chars) := by
  obtain ⟨d, ds, rfl⟩ := List.exists_cons_of_ne_nil hds
  simp [chars_sepBy]

theorem chars_intercalate {β : Type} (s : String) (g : β → String) : ∀ l : List β,
    (sepBy s (l.map fun a => str (g a))).chars = (s.intercalate (l.map g)).toList
  | [] => by simp [sepBy]
  | [a] => by simp [sepBy]
  | a :: b :: l => by
    have ih := chars_intercalate s g (b :: l)
    rw [String.toList_intercalate] at ih ⊢
    simp only [List.map_cons] at ih ⊢
    rw [sepBy, chars_append, chars_append, ih]
    · simp [List.intercalate]
    · simp

end Doc

/-- What is written for the meaning of a part of a type. -/
def Meaning.doc : Meaning → Doc
  | .abi s => abiDoc (some s)
  | .lifetimeParam p => Doc.str p.text
  | .lifetimes ls => Doc.str (" + ".intercalate ls)
  | .binder ls => binderDoc ls
  | .bounds bs => boundsDoc bs
  | .bound b => b.doc
  | .type t => t.doc
  | .path p => p.doc
  | .segment s => s.doc
  | .args a => a.doc
  | .arg a => a.doc
  | .bareArg a => a.doc
  | _ => []

namespace Meaning

/-- The lifetimes that a binder brings in. -/
def binder? : Meaning → Option (List LifetimeParam)
  | .binder ls => some ls
  | _ => none

/-- The string behind `extern`. -/
def abi? : Meaning → Option String
  | .abi s => some s
  | _ => none

/-- The path that is meant. -/
def path? : Meaning → Option Path
  | .path p => some p
  | _ => none

/-- The bound that is meant. -/
def bound? : Meaning → Option Bound
  | .bound b => some b
  | _ => none

/-- The lifetime parameter that is meant. -/
def lifetimeParam? : Meaning → Option LifetimeParam
  | .lifetimeParam p => some p
  | _ => none

/-- The type that is meant. -/
def type? : Meaning → Option TypeExpr
  | .type t => some t
  | _ => none

/-- The segment that is meant. -/
def segment? : Meaning → Option Segment
  | .segment s => some s
  | _ => none

/-- The generic argument that is meant. -/
def arg? : Meaning → Option GenericArg
  | .arg a => some a
  | _ => none

/-- The parameter of a function pointer that is meant. -/
def bareArg? : Meaning → Option BareArg
  | .bareArg a => some a
  | _ => none

end Meaning

namespace Reading

open Parts

variable {source : List Char} {cs : List Syntax}

@[simp]
theorem pick_nil {β : Type} (f : Meaning → Option β) : pick f [] = [] := rfl

/-! ### Parts of a rule -/

/-- Every tree of a rule among the trees is written as it is laid out. -/
def Written (source : List Char) (cs : List Syntax) : Prop :=
  ∀ a es, .node a es ∈ cs → (phrase source (.node a es)).meaning.doc.chars =
    textOf source (wall (.node a es) ++ margin a)

/-- All tokens are lexemes, and each is the slice of the source that it covers. -/
def Spelled (source : List Char) (ts : List Token) : Prop :=
  ∀ t ∈ ts, IsLexeme t.lexeme ∧ sliceOf source [t] = t.text

theorem Written.node (h : Written source cs) {a : Rule} {e : List Syntax} (hmem : .node a e ∈ cs)
    {m : Meaning} (hm : ruleMeaning source a (e.map (phrase source)) = m) :
    ∃ ts, phrase source (.node a e) = ⟨ts, m⟩ ∧
      m.doc.chars = textOf source (wall (.node a e) ++ margin a) := by
  have hkid := h a e hmem
  rw [phrase_node, hm] at hkid
  exact ⟨_, by rw [phrase_node, hm], hkid⟩

variable (source) in
theorem exists_type {r : Rule} (hr : r ∈ choices) (ps : Parts) :
    ∃ t, ruleMeaning source r ps = .type t := by
  simp only [choices, List.mem_cons, List.not_mem_nil, or_false] at hr
  rcases hr with rfl | rfl
  · rw [ruleMeaning]
    split <;> exact ⟨_, rfl⟩
  · rw [ruleMeaning]
    split <;> exact ⟨_, rfl⟩

theorem Written.type (h : Written source cs) {r : Rule} (hr : r ∈ choices) {e : List Syntax}
    (hmem : .node r e ∈ cs) : ∃ ts t, phrase source (.node r e) = ⟨ts, .type t⟩ ∧
      t.doc.chars = textOf source (wall (.node r e)) := by
  obtain ⟨t, ht⟩ := exists_type source hr (e.map (phrase source))
  obtain ⟨ts, hp, hc⟩ := h.node hmem ht
  have hmargin : margin r = [] := by
    simp only [choices, List.mem_cons, List.not_mem_nil, or_false] at hr
    rcases hr with rfl | rfl <;> rfl
  rw [hmargin, List.append_nil] at hc
  exact ⟨ts, t, hp, hc⟩

/-- A token whose kind is that of one text only. -/
theorem Spelled.leaf (h : Spelled source (leavesOf cs)) (s : String) {t : Token} {k : Kind}
    (ht : rust.accepts (.one k) t) (hmem : .leaf t ∈ cs)
    (hs : (k, s.toList) ∈ Kind.signs ∨ (s, k) ∈ Kind.keywords) :
    ∃ a b l m, t = ⟨k, s, a, b, l, m⟩ := by
  have hlex := (h t (leaves_subset_leavesOf hmem (List.mem_singleton.2 rfl))).1
  obtain ⟨k', s', a, b, l, m⟩ := t
  obtain rfl : k' = k := kind_eq ht
  have htext : s' = s := by
    rcases hs with hs | hs
    · exact String.toList_inj.1 (hlex.text_of_sign hs)
    · exact hlex.text_of_keyword hs
  exact ⟨a, b, l, m, by rw [htext]⟩

/-- A token of a kind. -/
theorem Spelled.word (h : Spelled source (leavesOf cs)) {t : Token} {k : Kind}
    (ht : rust.accepts (.one k) t) (hmem : .leaf t ∈ cs) :
    ∃ s a b l m, t = ⟨k, s, a, b, l, m⟩ ∧ s ≠ "" := by
  have hlex := (h t (leaves_subset_leavesOf hmem (List.mem_singleton.2 rfl))).1
  obtain ⟨k', s, a, b, l, m⟩ := t
  obtain rfl : k' = k := kind_eq ht
  refine ⟨s, a, b, l, m, rfl, ?_⟩
  rintro rfl
  exact hlex.ne_nil rfl

theorem pick_append {β : Type} (f : Meaning → Option β) (ps qs : Parts) :
    pick f (ps ++ qs) = pick f ps ++ pick f qs := List.filterMap_append

theorem has_append (k : Kind) (ps qs : Parts) : has k (ps ++ qs) = (has k ps || has k qs) :=
  List.any_append

@[simp]
theorem has_nil (k : Kind) : has k [] = false := rfl

theorem has_leaf (k : Kind) (t : Token) (ps : Parts) :
    has k (phrase source (.leaf t) :: ps) = (t.is k || has k ps) := rfl

theorem pick_leaf {β : Type} {f : Meaning → Option β} (hf : ∀ t, f (.token t) = none) (t : Token)
    (ps : Parts) : pick f (phrase source (.leaf t) :: ps) = pick f ps :=
  List.filterMap_cons_none (hf t)

theorem pick_node {β : Type} {f : Meaning → Option β} {a : Rule} {es : List Syntax} {b : β}
    (hb : f (ruleMeaning source a (es.map (phrase source))) = some b) (ps : Parts) :
    pick f (phrase source (.node a es) :: ps) = b :: pick f ps := by
  rw [phrase_node]
  exact List.filterMap_cons_some hb

/-- Trees of rules that give nothing. -/
theorem pick_of_covers {β : Type} {f : Meaning → Option β} (hf : ∀ t, f (.token t) = none) {e : Syn}
    (he : ∀ a, mentions a e → ∀ ps, f (ruleMeaning source a ps) = none) (h : Grammar.Covers rust e cs) :
    pick f (cs.map (phrase source)) = [] := by
  refine List.filterMap_eq_nil_iff.2 fun p hp => ?_
  obtain ⟨c, hc, rfl⟩ := List.mem_map.1 hp
  cases c with
  | leaf t => exact hf t
  | node a ds =>
    rw [phrase_node]
    exact he a (mentions_of_covers h hc) _

/-! ### Tokens among the parts -/

/-- Whether an expression has a token of a kind outside its rules. -/
def utters (k : Kind) : Syn → Bool
  | .tok c => c.has k
  | .seq a b | .alt a b => utters k a || utters k b
  | .star a => utters k a
  | .empty | .rule _ => false

variable (source) in
theorem isToken_of_covers {k : Kind} : ∀ {e : Syn} {us : List Syntax}, Grammar.Covers rust e us →
    utters k e = false → ∀ p ∈ us.map (phrase source), p.isToken k = false
  | .empty, _, h, _ => by
    obtain rfl := h
    simp
  | .tok c, _, ⟨t, h, ht⟩, hk => by
    subst h
    have hne : t.kind ≠ k := by
      rintro rfl
      rw [utters, show c.has t.kind = true from ht] at hk
      simp at hk
    simpa [isToken_leaf, Token.is] using hne
  | .rule a, _, ⟨es, h, _⟩, _ => by
    subst h
    simp [isToken_node]
  | .seq a b, _, ⟨us, vs, h, ha, hb⟩, hk => by
    subst h
    rw [utters, Bool.or_eq_false_iff] at hk
    rw [List.map_append, List.forall_mem_append]
    exact ⟨isToken_of_covers ha hk.1, isToken_of_covers hb hk.2⟩
  | .alt a b, _, .inl h, hk => isToken_of_covers h (Bool.or_eq_false_iff.1 hk).1
  | .alt a b, _, .inr h, hk => isToken_of_covers h (Bool.or_eq_false_iff.1 hk).2
  | .star a, _, ⟨pss, h, hall⟩, hk => by
    subst h
    induction pss with
    | nil => simp
    | cons us pss ih =>
      rw [List.flatten_cons, List.map_append, List.forall_mem_append]
      exact ⟨isToken_of_covers (hall us (List.mem_cons_self ..)) hk,
        ih fun vs hvs => hall vs (List.mem_cons_of_mem us hvs)⟩

theorem before_append {k : Kind} {ps : Parts} (h : ∀ p ∈ ps, p.isToken k = false) (qs : Parts) :
    before k (ps ++ qs) = ps ++ before k qs :=
  List.takeWhile_append_of_pos fun p hp => by simp [h p hp]

theorem after_append {k : Kind} {ps : Parts} (h : ∀ p ∈ ps, p.isToken k = false) (qs : Parts) :
    after k (ps ++ qs) = after k qs := by
  rw [after, List.dropWhile_append_of_pos fun p hp => by simp [h p hp]]
  rfl

variable (source) in
theorem has_of_covers {k : Kind} {e : Syn} (h : Grammar.Covers rust e cs) (he : utters k e = false) :
    has k (cs.map (phrase source)) = false := by
  simpa [Parts.has] using isToken_of_covers source h he

/-! ### Lists -/

/-- The signs between the entries of a list, as they are written. -/
def separators : List (Kind × String) := [(.comma, ", "), (.plus, " + "), (.dcolon, "::")]

theorem textOf_leaf {r : Rule} (hr : r ≠ .arrayType) (t : Token) (cs : List Syntax) :
    textOf source (wallOf r (.leaf t :: cs)) = textOf source (seat r t cs) ++
      textOf source (wallOf r cs) := by
  rw [wallOf, if_neg (by simp [hr]), textOf_append]

theorem textOf_node {r a : Rule} (es cs : List Syntax) :
    textOf source (wallOf r (.node a es :: cs)) = textOf source (wall (.node a es) ++ margin a) ++
      textOf source (wallOf r cs) := by
  rw [wallOf, textOf_append]

/-- A sign between two entries. -/
theorem textOf_separator {r : Rule} (hr : r ∉ [Rule.arrayType, .fnAbi]) {k : Kind} {w : String}
    (hsep : (k, w) ∈ separators) {t : Token} (ht : rust.accepts (.one k) t)
    (hlex : IsLexeme t.lexeme) (a : Rule) (es cs : List Syntax) :
    textOf source (wallOf r (.leaf t :: .node a es :: cs)) =
      w.toList ++ textOf source (wallOf r (.node a es :: cs)) := by
  have hall : ∀ p ∈ separators, ∃ q ∈ Kind.signs, q.1 = p.1 ∧ p.2.toList =
      if p.1 ∈ parted then ' ' :: q.2 ++ [' '] else if p.1 = .comma then q.2 ++ [' '] else q.2 := by
    decide +kernel
  obtain ⟨⟨_, s⟩, hs, rfl, htext⟩ := hall _ hsep
  obtain rfl := kind_eq ht
  simp only [List.mem_cons, List.not_mem_nil, or_false, not_or] at hr
  rw [textOf_leaf hr.1, htext, ← show t.text.toList = s from hlex.text_of_sign hs]
  simp only [separators, List.mem_cons, Prod.mk.injEq, List.not_mem_nil, or_false] at hsep
  rcases hsep with ⟨hk, -⟩ | ⟨hk, -⟩ | ⟨hk, -⟩ <;>
    simp [seat, hk, parted, spaced, closes, hr.2, Brick.text, Brick.blank]

section

variable {r : Rule} (hr : r ∉ [Rule.arrayType, .fnAbi]) {k : Kind} {w : String}
  (hsep : (k, w) ∈ separators)
  {β : Type} {f : Meaning → Option β} {g : β → Doc} (hf : ∀ t, f (.token t) = none) {e : Syn}

/-- Every derivation of `e` is a tree that `f` gives something for, and `g` writes it. -/
def Yields (source : List Char) (f : Meaning → Option β) (g : β → Doc) (e : Syn) : Prop :=
  ∀ vs, Grammar.Covers rust e vs → ∃ a es b, vs = [.node a es] ∧
    f (ruleMeaning source a (es.map (phrase source))) = some b ∧
    g b = (ruleMeaning source a (es.map (phrase source))).doc

theorem Written.of_append {us vs : List Syntax} (h : Written source (us ++ vs)) :
    Written source us ∧ Written source vs :=
  ⟨fun a es hmem => h a es (List.mem_append_left _ hmem),
    fun a es hmem => h a es (List.mem_append_right _ hmem)⟩

theorem Spelled.of_append {us vs : List Syntax} (h : Spelled source (leavesOf (us ++ vs))) :
    Spelled source (leavesOf us) ∧ Spelled source (leavesOf vs) := by
  rw [leavesOf_append] at h
  exact List.forall_mem_append.1 h

theorem Written.entry (h : Written source cs) {a : Rule} {es : List Syntax} (hmem : .node a es ∈ cs)
    {b : β} (hdoc : g b = (ruleMeaning source a (es.map (phrase source))).doc) :
    (g b).chars = textOf source (wall (.node a es)) ++ textOf source (margin a) := by
  rw [hdoc, ← textOf_append, ← h a es hmem, phrase_node]

theorem textOf_entry {a : Rule} {es : List Syntax} {b : β}
    (hdoc : g b = (ruleMeaning source a (es.map (phrase source))).doc)
    (hkids : Written source [.node a es]) (ds : List Syntax) :
    textOf source (wallOf r (.node a es :: ds)) = (g b).chars ++ textOf source (wallOf r ds) := by
  rw [textOf_node, ← hkids a es (List.mem_singleton.2 rfl), phrase_node, hdoc]

include hr hsep hf

theorem textOf_rounds (he : Yields source f g e) (ds : List Syntax) :
    ∀ {pss : List (List Syntax)}, (∀ us ∈ pss, Grammar.Covers rust (Expr.all [Syn.k k, e]) us) →
      Written source pss.flatten → Spelled source (leavesOf pss.flatten) →
      textOf source (wallOf r (pss.flatten ++ ds)) =
        ((pick f (pss.flatten.map (phrase source))).flatMap fun b => w.toList ++ (g b).chars) ++
          textOf source (wallOf r ds)
  | [], _, _, _ => rfl
  | us :: pss, h, hkids, hlex => by
    obtain ⟨_, vs, rfl, ⟨t, rfl, ht⟩, hvs⟩ := h us (List.mem_cons_self ..)
    obtain ⟨a, es, b, rfl, hb, hdoc⟩ := he vs hvs
    rw [List.flatten_cons] at hkids hlex ⊢
    have hrest := textOf_rounds he ds (fun vs hvs => h vs (List.mem_cons_of_mem _ hvs))
      hkids.of_append.2 hlex.of_append.2
    have hkid := (hkids.of_append.1).of_append.2
    have htoken := (hlex t (by simp [leavesOf, Grammar.Tree.leaves])).1
    simp only [List.cons_append, List.nil_append, List.map_cons]
    rw [pick_leaf hf, pick_node hb, List.flatMap_cons, textOf_separator hr hsep ht htoken,
      textOf_entry hdoc hkid, hrest]
    simp

/-- A list is written with the separators between its entries. -/
theorem textOf_list (he : Yields source f g e) {us : List Syntax}
    (h : Grammar.Covers rust (sepList k e) us) (hkids : Written source us)
    (hlex : Spelled source (leavesOf us)) : pick f (us.map (phrase source)) ≠ [] ∧
    ∀ ds, textOf source (wallOf r (us ++ ds)) =
      (Doc.sepBy w ((pick f (us.map (phrase source))).map g)).chars ++
        textOf source (wallOf r ds) := by
  obtain ⟨vs, _, rfl, hvs, pss, rfl, hpss⟩ := h
  obtain ⟨a, es, b, rfl, hb, hdoc⟩ := he vs hvs
  simp only [List.cons_append, List.nil_append, List.map_cons]
  rw [pick_node hb, List.map_cons]
  refine ⟨List.cons_ne_nil _ _, fun ds => ?_⟩
  rw [Doc.chars_sepBy, textOf_entry hdoc hkids.of_append.1,
    textOf_rounds hr hsep hf he ds hpss hkids.of_append.2 hlex.of_append.2, List.flatMap_map]
  simp

end

/-! ### Optional parts -/

/-- The trees are a sign that may be left out; `b` says whether it stands there, and then `s` is
written. -/
structure Flags (source : List Char) (r : Rule) (k : Kind) (s : String) (ms : List Syntax)
    (b : Bool) : Prop where
  has : ∀ ps, has k (ms.map (phrase source) ++ ps) = (b || has k ps)
  pick : ∀ {β : Type} {f : Meaning → Option β}, (∀ t, f (.token t) = none) → ∀ ps,
    pick f (ms.map (phrase source) ++ ps) = pick f ps
  text : ∀ ds, textOf source (wallOf r (ms ++ ds)) = (Doc.strIf b s).chars ++ textOf source (wallOf r ds)

theorem exists_flags {r : Rule} {k : Kind} {w s : String} {ms : List Syntax}
    (h : Grammar.Covers rust (Expr.opt (Syn.k k)) ms) (hlex : Spelled source (leavesOf ms))
    (hw : (k, w.toList) ∈ Kind.signs ∨ (w, k) ∈ Kind.keywords)
    (hseat : ∀ t cs, t.kind = k → t.text = w → textOf source (wallOf r (.leaf t :: cs)) =
      s.toList ++ textOf source (wallOf r cs)) : ∃ b, Flags source r k s ms b := by
  rcases h with ⟨t, rfl, ht⟩ | rfl
  · obtain ⟨_, _, _, _, rfl⟩ := hlex.leaf w ht (List.mem_singleton.2 rfl) hw
    refine ⟨true, fun ps => ?_, fun hf ps => pick_leaf hf _ ps, fun ds => ?_⟩
    · simp [Parts.has, isToken_leaf, Token.is]
    · rw [List.singleton_append, hseat _ _ rfl rfl, Doc.strIf, if_pos rfl, Doc.chars_str]
  · exact ⟨false, fun ps => rfl, fun _ ps => rfl, fun ds => rfl⟩

/-- The trees are a tree that may be left out; it stands there if `x` is something, and then it means
that. -/
structure Optional {γ : Type} (source : List Char) (r : Rule) (w : γ → Meaning) (bs : List Syntax)
    (x : Option γ) : Prop where
  has : ∀ k ps, has k (bs.map (phrase source) ++ ps) = has k ps
  pick : ∀ {β : Type} {f : Meaning → Option β} ps, pick f (bs.map (phrase source) ++ ps) =
    (x.bind fun c => f (w c)).toList ++ pick f ps
  text : ∀ ds, textOf source (wallOf r (bs ++ ds)) =
    (x.elim [] fun c => (w c).doc.chars) ++ textOf source (wallOf r ds)

theorem exists_optional {γ : Type} {r a : Rule} {w : γ → Meaning} {bs : List Syntax}
    (hwrap : ∀ ps, ∃ c, ruleMeaning source a ps = w c)
    (h : Grammar.Covers rust (Expr.opt (Syn.use a)) bs) (hkids : Written source bs) :
    ∃ x, Optional source r w bs x := by
  rcases h with ⟨es, rfl, -⟩ | rfl
  · obtain ⟨c, hc⟩ := hwrap (es.map (phrase source))
    refine ⟨some c, fun k ps => ?_, fun {β f} ps => ?_, fun ds => ?_⟩
    · simp [Parts.has, isToken_node]
    · rw [List.map_singleton, phrase_node, hc]
      simp only [Parts.pick, List.singleton_append, List.filterMap_cons, Option.bind_some]
      cases f (w c) <;> rfl
    · rw [List.singleton_append, textOf_node, ← hkids _ es (List.mem_singleton.2 rfl), phrase_node, hc]
      rfl
  · exact ⟨none, fun k ps => rfl, fun ps => rfl, fun ds => rfl⟩

theorem Optional.binder {r : Rule} {bs : List Syntax} {x : Option (List LifetimeParam)}
    (h : Optional source r Meaning.binder bs x) {ps : Parts} (hps : binder ps = []) :
    binder (bs.map (phrase source) ++ ps) = x.getD [] := by
  have hpick := h.pick (f := Meaning.binder?) ps
  change (Parts.pick Meaning.binder? ps).head?.getD [] = [] at hps
  change (Parts.pick Meaning.binder? (bs.map (phrase source) ++ ps)).head?.getD [] = x.getD []
  rw [hpick]
  cases x with
  | none => exact hps
  | some ls => rfl

theorem chars_binderDoc (x : Option (List LifetimeParam)) :
    (x.elim [] fun ls => (binderDoc ls).chars) = (binderDoc (x.getD [])).chars := by
  cases x <;> rfl

theorem chars_abiDoc (x : Option String) :
    (x.elim [] fun s => (abiDoc (some s)).chars) = (abiDoc x).chars := by
  cases x <;> rfl

/-- The trees are an arrow and the type that a function returns, which may be left out. -/
structure Returns (source : List Char) (r : Rule) (os : List Syntax) (o : Option TypeExpr) : Prop where
  has : ∀ k, k ≠ .arrow → has k (os.map (phrase source)) = false
  pick : ∀ {β : Type} {f : Meaning → Option β}, (∀ t, f (.token t) = none) →
    pick f (os.map (phrase source)) = (o.bind fun t => f (.type t)).toList
  before : before .arrow (os.map (phrase source)) = []
  after : ∀ {β : Type} {f : Meaning → Option β}, Parts.pick f (after .arrow (os.map (phrase source))) =
    (o.bind fun t => f (.type t)).toList
  text : textOf source (wallOf r os) = (outputDoc o).chars

theorem exists_returns {r : Rule} (hr : r ≠ .arrayType) {os : List Syntax}
    (h : Grammar.Covers rust Syn.plainReturn os) (hkids : Written source os)
    (hlex : Spelled source (leavesOf os)) : ∃ o, Returns source r os o := by
  rcases h with ⟨_, _, rfl, ⟨a, rfl, ha⟩, es, rfl, -⟩ | rfl
  · obtain ⟨ts, t, hp, ht⟩ := hkids.type (r := .typeNoBounds) (by decide) (e := es) (by simp)
    obtain ⟨_, _, _, _, rfl⟩ := hlex.leaf "->" ha (by simp) (by decide)
    have hlast : ∀ {β : Type} {f : Meaning → Option β},
        Parts.pick f [⟨ts, .type t⟩] = ((some t).bind fun t => f (.type t)).toList := by
      intro β f
      simp only [Parts.pick, List.filterMap_cons, List.filterMap_nil, Option.bind_some]
      cases f (.type t) <;> rfl
    refine ⟨some t, fun k hk => ?_, fun {β f} hf => ?_, rfl, fun {β f} => ?_, ?_⟩
    · simp [Parts.has, isToken_leaf, isToken_node, Token.is, hk.symm]
    · simp only [List.singleton_append, List.map_cons, List.map_nil, hp]
      rw [pick_leaf hf, hlast]
    · simp only [List.singleton_append, List.map_cons, List.map_nil, hp]
      exact hlast
    · simp [outputDoc, ht, wallOf, hr, seat, parted, margin, Brick.text, Brick.blank]
  · exact ⟨none, fun k _ => rfl, fun _ => rfl, rfl, rfl, rfl⟩

/-! ### Rules -/

theorem chars_eq {r : Rule} {ps : Parts} {m : Meaning} {x : List Char}
    (hm : ruleMeaning source r ps = m) (hx : m.doc.chars = x) :
    (ruleMeaning source r ps).doc.chars = x := hm ▸ hx

theorem chars_fnAbi (h : Grammar.Covers rust (terseBody .fnAbi) cs) (hlex : Spelled source (leavesOf cs)) :
    (ruleMeaning source .fnAbi (cs.map (phrase source))).doc.chars =
      textOf source (wallOf .fnAbi cs ++ margin .fnAbi) := by
  obtain ⟨_, as, rfl, ⟨e, rfl, he⟩, has⟩ := h
  obtain ⟨_, _, _, _, rfl⟩ := hlex.leaf "extern" he (by simp) (by decide)
  rcases has with (⟨a, rfl, ha⟩ | ⟨a, rfl, ha⟩) | rfl
  · obtain ⟨s, _, _, _, _, rfl, hs⟩ := hlex.word ha (by simp)
    refine chars_eq (m := .abi s) rfl ?_
    simp [Meaning.doc, abiDoc, hs, wallOf, seat, parted, spaced, margin, Brick.text, Brick.blank]
  · obtain ⟨s, _, _, _, _, rfl, hs⟩ := hlex.word ha (by simp)
    refine chars_eq (m := .abi s) rfl ?_
    simp [Meaning.doc, abiDoc, hs, wallOf, seat, parted, spaced, margin, Brick.text, Brick.blank]
  · refine chars_eq (m := .abi "") rfl ?_
    simp [Meaning.doc, abiDoc, wallOf, seat, parted, spaced, margin, Brick.text, Brick.blank]

end Reading

end TraitLift
