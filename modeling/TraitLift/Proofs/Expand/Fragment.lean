import Mathlib.Tactic
import TraitLift.Proofs.Expand.Lookahead
import TraitLift.Proofs.Token.Excise

/-!
The text of a marked block. A block is read apart from the text around it, with blanks in the place
of its mark. Its tokens are those it has in the text, less the tokens of the mark
(`Site.Parting.scan_fragment`), and they are the tokens of the text of the block without the mark,
too, but for their places (`Site.Parting.scan_item`).
-/

namespace TraitLift

open TraitLift.Text TraitLift.Terminal

/-! ### The tokens of a marked block -/

/-- The tokens of one outer attribute. -/
inductive IsAttr : List Token → Prop where
  | doc {t : Token} (h : t.kind = .outerDoc ∨ t.kind = .outerBlockDoc) : IsAttr [t]
  | bracket {t b : Token} {ts : List Token} (ht : t.kind = .pound) (hb : b.kind = .lsqb)
      (h : group? (b :: ts) = some (b :: ts, [])) : IsAttr (t :: b :: ts)

/-- A group is found whatever comes behind it. -/
theorem closeGroup_self {closers : List Kind} {ts g rest : List Token}
    (h : closeGroup closers ts = some (g, rest)) : closeGroup closers g = some (g, []) := by
  fun_induction closeGroup closers ts generalizing g rest with
  | case1 => simp at h
  | case2 closers t ts c hc ih =>
    obtain ⟨⟨g', rest'⟩, h', heq⟩ := Option.map_eq_some_iff.1 h
    obtain ⟨rfl, rfl⟩ := Prod.mk.inj heq
    rw [closeGroup_opener hc, ih h', Option.map_some]
  | case3 => simp at h
  | case4 => simp at h
  | case5 t ts hc hcl c outer hk ho =>
    obtain ⟨rfl, rfl⟩ := Prod.mk.inj (Option.some.inj h)
    obtain rfl : c = t.kind := by simpa using hk
    rw [closeGroup_closer hcl, if_pos ho]
  | case6 t ts hc hcl c outer hk ho ih =>
    obtain ⟨⟨g', rest'⟩, h', heq⟩ := Option.map_eq_some_iff.1 h
    obtain ⟨rfl, rfl⟩ := Prod.mk.inj heq
    obtain rfl : c = t.kind := by simpa using hk
    rw [closeGroup_closer hcl, if_neg ho, ih h', Option.map_some]
  | case7 closers t ts hc hcl ih =>
    obtain ⟨⟨g', rest'⟩, h', heq⟩ := Option.map_eq_some_iff.1 h
    obtain ⟨rfl, rfl⟩ := Prod.mk.inj heq
    rw [closeGroup_other hc (by simpa using hcl), ih h', Option.map_some]

theorem isAttr_of_outerAttr? {source : List Char} {v rest : List Token} {a : OuterAttr}
    (h : outerAttr? source (v ++ rest) = some (a, rest)) : IsAttr v := by
  cases v with
  | nil =>
    have := outerAttr?_length_lt h
    simp at this
  | cons t ts =>
  rw [List.cons_append] at h
  generalize hall : ts ++ rest = all at h
  cases attrStart t all with
  | doc hdoc =>
    rw [outerAttr?_doc source hdoc] at h
    have hrest := (Prod.mk.inj (Option.some.inj h)).2
    obtain rfl : ts = [] := by simpa [← hall] using hrest
    exact .doc hdoc
  | @bracket b all ht hb =>
    rw [outerAttr?_bracket source ht hb] at h
    obtain ⟨⟨g, rest'⟩, hg, heq⟩ := Option.map_eq_some_iff.1 h
    obtain rfl : rest' = rest := (Prod.mk.inj heq).2
    have happ := group?_append hg
    rw [← hall] at happ
    obtain rfl := List.append_cancel_right happ
    have hown := closeGroup_self hg
    rw [group?, closeGroup_opener (by rw [hb]; rfl)] at hg
    obtain ⟨⟨g', rest''⟩, -, heq'⟩ := Option.map_eq_some_iff.1 hg
    obtain ⟨rfl, -⟩ := Prod.mk.inj heq'
    exact .bracket ht hb hown
  | other hdoc hb => simp [outerAttr?_other source hdoc hb] at h

namespace IsAttr

theorem exists_outerAttr? {v : List Token} (h : IsAttr v) (source : List Char) (rest : List Token) :
    ∃ a, outerAttr? source (v ++ rest) = some (a, rest) := by
  cases h with
  | doc hdoc => exact ⟨_, outerAttr?_doc source hdoc⟩
  | @bracket t b ts ht hb hg =>
    have hmore : group? (b :: ts ++ rest) = some (b :: ts, rest) := closeGroup_append_right hg rest
    exact ⟨_, by rw [List.cons_append, List.cons_append, outerAttr?_bracket source ht hb,
      ← List.cons_append, hmore, Option.map_some]⟩

/-- Where an attribute ends is plain from its tokens. -/
theorem append_inj {v w x y : List Token} (hv : IsAttr v) (hw : IsAttr w) (h : v ++ x = w ++ y) :
    v = w ∧ x = y := by
  obtain ⟨a, ha⟩ := hv.exists_outerAttr? [] x
  obtain ⟨b, hb⟩ := hw.exists_outerAttr? [] y
  rw [h, hb, Option.some.injEq, Prod.mk.injEq] at ha
  obtain rfl := ha.2
  exact ⟨List.append_cancel_right h, rfl⟩

theorem of_map {f : Token → Token} (hf : ∀ t, (f t).kind = t.kind) {v : List Token}
    (h : IsAttr (v.map f)) : IsAttr v := by
  generalize hvs : v.map f = vs at h
  cases h with
  | @doc t hdoc =>
    obtain ⟨t', rfl, rfl⟩ := List.map_eq_singleton_iff.1 hvs
    exact .doc (by rwa [← hf])
  | @bracket t b ts ht hb hg =>
    obtain ⟨t', _, rfl, rfl, htail⟩ := List.map_eq_cons_iff.1 hvs
    obtain ⟨b', ts', rfl, rfl, rfl⟩ := List.map_eq_cons_iff.1 htail
    refine .bracket (by rwa [← hf]) (by rwa [← hf]) ?_
    rw [← List.map_cons, group?_map hf, Option.map_eq_some_iff] at hg
    obtain ⟨⟨g, rest⟩, hg, heq⟩ := hg
    obtain rfl : rest = [] := List.map_eq_nil_iff.1 (Prod.mk.inj heq).2
    have happ := group?_append hg
    rw [List.append_nil] at happ
    rw [hg, happ]

theorem last {v : List Token} (h : IsAttr v) :
    ∃ t, v.getLast? = some t ∧ (Outcome.token t.kind).isGap := by
  cases h with
  | @doc t hdoc => exact ⟨t, rfl, by rcases hdoc with hdoc | hdoc <;> simp [Outcome.isGap, hdoc]⟩
  | @bracket t b ts ht hb hg =>
    rw [group?, closeGroup_opener (by rw [hb]; rfl)] at hg
    obtain ⟨⟨g, rest⟩, hg, heq⟩ := Option.map_eq_some_iff.1 hg
    obtain rfl := (List.cons.inj (Prod.mk.inj heq).1).2
    obtain ⟨last, hlast, hkind⟩ := closeGroup_last hg rfl
    refine ⟨last, ?_, by rw [hkind]; rfl⟩
    rw [List.getLast?_cons, List.getLast?_cons, hlast]
    rfl

end IsAttr

/-- The tokens of a row of outer attributes. -/
inductive AttrRow : List Token → Prop where
  | nil : AttrRow []
  | cons {v us : List Token} : IsAttr v → AttrRow us → AttrRow (v ++ us)

theorem AttrRow.of_map {f : Token → Token} (hf : ∀ t, (f t).kind = t.kind) {us : List Token}
    (h : AttrRow (us.map f)) : AttrRow us := by
  generalize hvs : us.map f = vs at h
  induction h generalizing us with
  | nil =>
    rw [List.map_eq_nil_iff.1 hvs]
    exact .nil
  | cons hv _ ih =>
    obtain ⟨v', us', rfl, rfl, rfl⟩ := List.map_eq_append_iff.1 hvs
    exact .cons (hv.of_map hf) (ih rfl)

/-- Each attribute of a run stands behind those before it. -/
theorem exists_row_of_mem_attrRun {source : List Char} {mark : OuterAttr} {ts : List Token}
    (h : mark ∈ (attrRun source ts).1) :
    ∃ us ms ws, ts = us ++ (ms ++ (ws ++ (attrRun source ts).2)) ∧
      AttrRow us ∧
      outerAttr? source (ms ++ (ws ++ (attrRun source ts).2)) =
        some (mark, ws ++ (attrRun source ts).2) := by
  fun_induction attrRun source ts with
  | case1 => simp at h
  | case2 ts a rest hattr as rest' hrun ih =>
    simp only [hrun] at h ih ⊢
    obtain ⟨v, rfl, -⟩ := outerAttr?_split hattr
    rcases List.mem_cons.1 h with rfl | h
    · obtain ⟨ws, hws, -⟩ := attrRun_split source rest
      rw [hrun] at hws
      simp only at hws
      refine ⟨[], v, ws, ?_, .nil, ?_⟩
      · rw [List.nil_append, ← hws]
      · rw [← hws, hattr]
    · obtain ⟨us, ms, ws, hrest, hrow, hmark⟩ := ih h
      refine ⟨v ++ us, ms, ws, ?_, .cons (isAttr_of_outerAttr? hattr) hrow, hmark⟩
      rw [List.append_assoc, ← hrest]

theorem inspect_isMark {c : Config} {run : List OuterAttr} {ts : List Token} {s : Site}
    (h : (inspect c run ts).1 = some (.site s)) : s.mark.isMark c := by
  fun_cases inspect c run ts with
  | case1 first mark hmark hfirst himpl item after hitem =>
    simp only [inspect, hfirst, hmark, himpl, hitem, if_true, Option.some.injEq,
      Finding.site.injEq] at h
    have hmem : mark ∈ run.filter (·.isMark c) := by simp [hmark]
    rw [← h]
    exact (List.mem_filter.1 hmem).2
  | case2 first mark hmark hfirst himpl hitem =>
    cases ts <;> simp [inspect, hfirst, hmark, himpl, hitem] at h
  | case3 first mark hmark hfirst himpl => simp [inspect, hfirst, hmark, himpl] at h
  | case4 first mark second marks hmarks hfirst => simp [inspect, hfirst, hmarks] at h
  | case5 hone hmany =>
    unfold inspect at h
    split at h
    · next hfirst hmark => exact absurd hmark (hone _ _ hfirst)
    · next hfirst hmarks => exact absurd hmarks (hmany _ _ _ _ hfirst)
    · simp at h

/-- A marked block in a row of tokens: the attributes `us` in front of its mark, the mark `ms`, and
the rest `ws` of the block. -/
structure Site.Laid (s : Site) (source : List Char) (c : Config) (us ms ws after : List Token) :
    Prop where
  row : AttrRow us
  attr : outerAttr? source (ms ++ (ws ++ after)) = some (s.mark, ws ++ after)
  isMark : s.mark.isMark c
  first : (us ++ ms).head? = some s.first
  last : ws.getLast? = some s.last

theorem exists_laid {source : List Char} {c : Config} {ts : List Token} {s : Site}
    (h : s ∈ sitesOf source c ts) :
    ∃ before us ms ws after, ts = before ++ (us ++ (ms ++ (ws ++ after))) ∧
      s.Laid source c us ms ws after := by
  unfold sitesOf at h
  fun_induction findings source c ts with
  | case1 => simp at h
  | case2 t rest hattr ih =>
    obtain ⟨before, us, ms, ws, after, rfl, hlaid⟩ := ih h
    exact ⟨t :: before, us, ms, ws, after, rfl, hlaid⟩
  | case3 t rest a after hattr run seen =>
    next ih =>
    have hrun := attrRun_of_some hattr
    obtain ⟨block, hts, hfirst, -⟩ := outerAttr?_split hattr
    obtain ⟨front, hafter, -⟩ := attrRun_split source after
    obtain ⟨item, hitem, hsite⟩ := inspect_split c (a :: run.1) run.2
    rw [List.filterMap_append] at h
    rcases List.mem_append.1 h with h | h
    · -- the block that this run of attributes marks
      obtain ⟨f, hf, hs⟩ := List.mem_filterMap.1 h
      obtain rfl : f = .site s := by
        cases f with
        | site s' => rw [Option.some.inj hs]
        | problem e loc => simp [Finding.site?] at hs
      have hseen : seen.1 = some (.site s) := by simpa using hf
      obtain ⟨⟨a', ha', hs'⟩, hmark, hlast⟩ := hsite s hseen
      obtain rfl : a = a' := by simpa using ha'
      have hmem : s.mark ∈ (attrRun source (t :: rest)).1 := by
        rw [hrun]
        exact hmark
      obtain ⟨us, ms, ws, hall, hrow, hattr'⟩ := exists_row_of_mem_attrRun hmem
      rw [hrun] at hall hattr'
      simp only at hall hattr'
      rw [hitem, ← List.append_assoc ws] at hall hattr'
      refine ⟨[], us, ms, ws ++ item, seen.2, by simpa using hall, hrow, hattr',
        inspect_isMark hseen, ?_, ?_⟩
      · obtain ⟨v, hv, hhead, -⟩ := outerAttr?_split hattr'
        obtain rfl := List.append_cancel_right hv
        have hstart : (us ++ (ms ++ ((ws ++ item) ++ seen.2))).head? = some a.first := by
          rw [← hall, hts, List.head?_append, hfirst]
          rfl
        have hne : us ++ ms ≠ [] := by
          intro hnil
          simp [(List.append_eq_nil_iff.1 hnil).2] at hhead
        rw [hs', ← hstart, ← List.append_assoc, List.head?_append_of_ne_nil _ hne]
      · rw [List.getLast?_append, hlast]
        rfl
    · obtain ⟨before, us, ms, ws, last, heq, hlaid⟩ := ih h
      refine ⟨block ++ (front ++ (item ++ before)), us, ms, ws, last, ?_, hlaid⟩
      simp only [List.append_assoc]
      rw [← heq, ← hitem, ← hafter, hts]

/-! ### The ends of attributes -/

/-- A mark is no doc comment. -/
theorem outerAttr?_mark {source : List Char} {c : Config} {ts rest : List Token} {a : OuterAttr}
    (h : outerAttr? source ts = some (a, rest)) (hmark : a.isMark c) : a.first.kind = .pound := by
  cases ts with
  | nil => simp [outerAttr?] at h
  | cons t ts =>
  cases attrStart t ts with
  | doc hdoc =>
    rw [outerAttr?_doc source hdoc] at h
    obtain ⟨rfl, -⟩ := Prod.mk.inj (Option.some.inj h)
    simp [OuterAttr.isMark] at hmark
  | bracket ht hb =>
    rw [outerAttr?_bracket source ht hb] at h
    obtain ⟨p, -, heq⟩ := Option.map_eq_some_iff.1 h
    obtain ⟨rfl, -⟩ := Prod.mk.inj heq
    exact ht
  | other hdoc hb => simp [outerAttr?_other source hdoc hb] at h

theorem AttrRow.last {us : List Token} (h : AttrRow us) :
    ∀ t ∈ us.getLast?, (Outcome.token t.kind).isGap := by
  induction h with
  | nil => simp
  | @cons v us hv _ ih =>
    intro t ht
    cases hus : us.getLast? with
    | some u =>
      rw [List.getLast?_append, hus] at ht
      obtain rfl := Option.some.inj ht
      exact ih u (by rw [hus]; rfl)
    | none =>
      rw [List.getLast?_append, hus] at ht
      obtain ⟨last, hlast, hgap⟩ := hv.last
      rw [hlast] at ht
      obtain rfl := Option.some.inj ht
      exact hgap

/-! ### Signs -/

/-- A token of a kind that only one sign has is that sign. -/
theorem lexeme_eq_sign {k : Kind} {sign : Char} {lexeme x : List Char} {o : Outcome} {start : Nat}
    {loc : Loc} {t : Token} (hall : ∀ u ∈ all, u.1 = .token k → u.2 = exactly [sign])
    (hword : k ∉ Kind.name :: Kind.keywords.map Prod.snd)
    (hfirst : first? (lexeme ++ x) = some (o, lexeme.length))
    (htoken : o.token? lexeme start loc = some t) (hk : t.kind = k) : lexeme = [sign] := by
  have ho : o = .token k := by
    cases o with
    | skip => simp [Outcome.token?] at htoken
    | token k' =>
      obtain rfl := Option.some.inj htoken
      rw [← hk]
    | word =>
      obtain rfl := Option.some.inj htoken
      exact absurd (Kind.ofWord_mem _) (hk ▸ hword)
  obtain ⟨m, hm, hn⟩ := exists_terminal_of_first? hfirst
  obtain rfl : m = exactly [sign] := hall (o, m) hm ho
  unfold exactly at hn
  split at hn
  · next hp =>
    have hlen : lexeme.length = 1 := (Option.some.inj hn).symm
    obtain ⟨c, rfl⟩ := List.length_eq_one_iff.1 hlen
    obtain ⟨rfl, -⟩ := List.cons_prefix_cons.1 (List.isPrefixOf_iff_prefix.1 hp)
    rfl
  · simp at hn

/-- Lexemes of a kind that one terminal alone makes. -/
theorem eq_of_filter_all {o : Outcome} {m : List Char → Option Nat}
    (h : all.filter (·.1 = o) = [(o, m)]) : ∀ u ∈ all, u.1 = o → u.2 = m := by
  intro u hu ho
  have hmem : u ∈ all.filter (·.1 = o) := List.mem_filter.2 ⟨hu, decide_eq_true ho⟩
  rw [h] at hmem
  rw [List.mem_singleton.1 hmem]

theorem pound_sign : ∀ u ∈ all, u.1 = .token .pound → u.2 = exactly ['#'] := eq_of_filter_all rfl

/-! ### The text of a marked block -/

/-- A marked block in the text from its first token on: the attributes in front of the mark, the
mark, the rest of the block and what comes behind it, each as text and as tokens. -/
structure Site.Parting (s : Site) (c : Config) (source : List Char) (ts : List Token) where
  before : List Token
  attrs : List Token
  mark : List Token
  rest : List Token
  later : List Token
  attrsText : List Char
  markText : List Char
  restText : List Char
  laterText : List Char
  tokens_eq : ts = before ++ (attrs ++ (mark ++ (rest ++ later))).map
    (Token.moved s.first.start s.first.loc)
  text_eq : source.drop s.first.start = attrsText ++ (markText ++ (restText ++ laterText))
  attrs_cuts : Cuts 0 Loc.origin (attrsText ++ (markText ++ (restText ++ laterText))) attrs
    (markText ++ (restText ++ laterText))
  mark_cuts : Cuts attrsText.length (Loc.origin.after attrsText)
    (markText ++ (restText ++ laterText)) mark (restText ++ laterText)
  rest_cuts : Cuts (attrsText.length + markText.length)
    ((Loc.origin.after attrsText).after markText) (restText ++ laterText) rest laterText
  laid : s.Laid source c (attrs.map (Token.moved s.first.start s.first.loc))
    (mark.map (Token.moved s.first.start s.first.loc))
    (rest.map (Token.moved s.first.start s.first.loc))
    (later.map (Token.moved s.first.start s.first.loc))
  mark_start : s.mark.first.start = s.first.start + attrsText.length
  mark_stop : s.mark.last.stop = s.first.start + (attrsText.length + markText.length)
  last_stop : s.last.stop =
    s.first.start + (attrsText.length + markText.length + restText.length)
  hash : markText.head? = some '#'

/-- Every marked block of a text has its part of the text. -/
theorem exists_parting {source : List Char} {ts : List Token} (hscan : scan source = ⟨ts, none⟩)
    {c : Config} {s : Site} (hs : s ∈ sitesOf source c ts) : Nonempty (s.Parting c source ts) := by
  obtain ⟨before, us, ms, ws, after, rfl, hlaid⟩ := exists_laid hs
  obtain ⟨ms', hms, hmark, hmarkLast⟩ := outerAttr?_split hlaid.attr
  obtain rfl := List.append_cancel_right hms
  -- the tokens from the first one of the block on are those of a text of its own
  obtain ⟨vs, hvs⟩ : ∃ vs, us ++ (ms ++ (ws ++ after)) = s.first :: vs := by
    obtain ⟨vs, hvs⟩ := List.head?_eq_some_iff.1 hlaid.first
    exact ⟨vs ++ (ws ++ after), by rw [← List.append_assoc, hvs, List.cons_append]⟩
  have hcuts := scan_eq_complete_iff.1 hscan
  rw [hvs] at hcuts
  obtain ⟨a, text, rfl, -, htext, hstart, hloc⟩ := hcuts.before
  rw [Nat.zero_add] at hstart htext
  rw [← hvs, ← hstart, ← hloc, ← List.append_nil text] at htext
  have hown := htext.scanFrom_truncated
  rw [scanFrom_moved, Scan.mk.injEq, Option.map_eq_none_iff] at hown
  obtain ⟨us', rest₁, htokens₁, rfl, h₁⟩ := List.map_eq_append_iff.1 hown.1
  obtain ⟨ms', rest₂, rfl, rfl, h₂⟩ := List.map_eq_append_iff.1 h₁
  obtain ⟨ws', after', rfl, rfl, rfl⟩ := List.map_eq_append_iff.1 h₂
  have hown' : scan text = ⟨us' ++ (ms' ++ (ws' ++ after')), none⟩ := by
    rw [← htokens₁, ← hown.2]
  have hcuts' := scan_eq_complete_iff.1 hown'
  rw [List.head?_map, Option.map_eq_some_iff] at hmark
  rw [List.getLast?_map, Option.map_eq_some_iff] at hmarkLast
  obtain ⟨m, hm, hmfirst⟩ := hmark
  obtain ⟨n, hn, hnlast⟩ := hmarkLast
  have hlast := hlaid.last
  rw [List.getLast?_map, Option.map_eq_some_iff] at hlast
  obtain ⟨w, hw, hwlast⟩ := hlast
  obtain ⟨ms, rfl⟩ := List.head?_eq_some_iff.1 hm
  obtain ⟨u, x, rfl, hu, hx, hmstart, -⟩ := hcuts'.before
  rw [Nat.zero_add] at hx hmstart
  obtain ⟨mt, y, rfl, hmt, hy, hnstop, -⟩ := @Cuts.behind _ _ _ _ (m :: ms) _ _ hx hn
  obtain ⟨wt, z, rfl, hwt, -, hwstop, -⟩ := hy.behind hw
  have hpound : m.kind = .pound := by
    rw [← Token.moved_kind s.first.start s.first.loc, hmfirst]
    exact outerAttr?_mark hlaid.attr hlaid.isMark
  have hhash : (mt ++ (wt ++ z)).head? = some '#' := by
    obtain ⟨pre, lexeme, post, o, happ, hfirst, htoken, -, -⟩ := @Cuts.divide _ _ _ _ [] _ _ hmt
    have hstart' := (Outcome.token?_range htoken).1
    obtain rfl : pre = [] := List.length_eq_zero_iff.1 (by omega)
    rw [happ, lexeme_eq_sign pound_sign (by decide) hfirst htoken hpound]
    rfl
  have hlt : m.start < n.stop :=
    InOrder.head_lt_last (u := m :: ms) (v := []) (by simpa using hmt.inOrder) rfl hn
  refine ⟨⟨before, us', m :: ms, ws', after', u, mt, wt, z, ?_, ?_, hu, hmt, hwt, hlaid, ?_, ?_, ?_,
    ?_⟩⟩
  · simp
  · rw [hstart, List.drop_left]
  · rw [← hmfirst, Token.moved_start, hmstart, Nat.add_comm]
  · rw [← hnlast, Token.moved_stop, hnstop, Nat.add_comm]
  · rw [← hwlast, Token.moved_stop, hwstop, Nat.add_comm]
  · cases mt with
    | nil =>
      rw [List.length_nil] at hnstop
      omega
    | cons d mt => exact hhash

/-- The text of a marked block without its mark. -/
def Site.item (s : Site) (source : List Char) : List Char :=
  between source s.first.start s.mark.first.start ++ between source s.mark.last.stop s.last.stop

/-- Whether a token of the text is one of a marked block and not of its mark. -/
def Site.owns (s : Site) (t : Token) : Bool :=
  decide (s.first.start ≤ t.start ∧ t.stop ≤ s.last.stop) &&
    !decide (s.mark.first.start ≤ t.start ∧ t.stop ≤ s.mark.last.stop)

/-- The tokens of a marked block in a text, from the first of its attributes to the brace that closes
it, without those of its mark. -/
def Site.tokens (s : Site) (ts : List Token) : List Token := ts.filter s.owns

theorem Site.owns_iff {s : Site} {t : Token} : s.owns t = true ↔
    (s.first.start ≤ t.start ∧ t.stop ≤ s.last.stop) ∧
      ¬ (s.mark.first.start ≤ t.start ∧ t.stop ≤ s.mark.last.stop) := by
  simp only [Site.owns, Bool.and_eq_true, Bool.not_eq_true', decide_eq_true_eq,
    decide_eq_false_iff_not]

theorem isBlank_of_mem_blankOut {cs : List Char} : ∀ c ∈ blankOut cs, isBlank c := by
  intro c hc
  obtain ⟨d, -, rfl⟩ := List.mem_map.1 hc
  split <;> decide

theorem after_blankOut (l : Loc) (cs : List Char) : l.after (blankOut cs) = l.after cs := by
  refine Loc.after_map (fun c => ?_) l cs
  split <;> simp_all

namespace Site.Parting

variable {s : Site} {c : Config} {source : List Char} {ts : List Token} (p : s.Parting c source ts)

theorem between_attrs : between source s.first.start s.mark.first.start = p.attrsText := by
  rw [between, p.text_eq, p.mark_start, Nat.add_sub_cancel_left, List.take_left]

theorem between_mark : between source s.mark.first.start s.mark.last.stop = p.markText := by
  rw [between, p.mark_start, p.mark_stop, ← List.drop_drop, p.text_eq, List.drop_left,
    Nat.add_sub_add_left, Nat.add_sub_cancel_left, List.take_left]

theorem between_rest : between source s.mark.last.stop s.last.stop = p.restText := by
  rw [between, p.mark_stop, p.last_stop, ← List.drop_drop, p.text_eq, ← List.drop_drop,
    List.drop_left, List.drop_left, Nat.add_sub_add_left, Nat.add_sub_cancel_left, List.take_left]

theorem not_lineEdge : ¬ LineEdge (p.markText ++ (p.restText ++ p.laterText)) := by
  intro h
  have hhash := h '#' (by rw [List.head?_append, p.hash]; rfl)
  exact absurd hhash (by decide)

/-- The rest of the block is a part of the text behind the attributes. -/
theorem restText_infix : p.restText <:+: p.markText ++ (p.restText ++ p.laterText) :=
  ⟨p.markText, p.laterText, by simp⟩

/-- The tokens of the block with its mark blanked out stand where they stand in the text. -/
theorem scan_fragment : scan (s.fragment source) = ⟨p.attrs ++ p.rest, none⟩ := by
  have hne : blankOut p.markText ≠ [] := by
    intro h
    have hhash := p.hash
    rw [List.map_eq_nil_iff.1 h] at hhash
    simp at hhash
  rw [scan, Site.fragment, p.between_attrs, p.between_mark, p.between_rest, List.append_assoc,
    p.attrs_cuts.scanFrom_blanked hne isBlank_of_mem_blankOut p.not_lineEdge p.restText_infix,
    after_blankOut, blankOut, List.length_map, Nat.zero_add, p.rest_cuts.scanFrom_truncated]
  rfl

/-- The rest of the block as a text of its own. -/
theorem exists_restTokens : ∃ vs, scan p.restText = ⟨vs, none⟩ ∧
    p.rest = vs.map (Token.moved (p.attrsText.length + p.markText.length)
      ((Loc.origin.after p.attrsText).after p.markText)) := by
  have hrest := p.rest_cuts.scanFrom_truncated
  rw [scanFrom_moved, Scan.mk.injEq, Option.map_eq_none_iff] at hrest
  exact ⟨_, by rw [← hrest.2], hrest.1.symm⟩

/-- The tokens of the block without its mark: those behind the mark have moved up to the attributes
in front of it. -/
theorem scan_item {vs : List Token} (hvs : scan p.restText = ⟨vs, none⟩) :
    scan (s.item source) = ⟨p.attrs ++ vs.map (Token.moved p.attrsText.length
      (Loc.origin.after p.attrsText)), none⟩ := by
  have hrow : AttrRow p.attrs := p.laid.row.of_map (Token.moved_kind _ _)
  rw [scan, Site.item, p.between_attrs, p.between_rest,
    p.attrs_cuts.scanFrom_joined hrow.last p.not_lineEdge p.restText_infix, Nat.zero_add,
    scanFrom_moved, hvs]
  rfl

/-- The tokens of the block in the text. -/
theorem tokens_map (h : InOrder 0 source.length ts) :
    s.tokens ts = (p.attrs ++ p.rest).map (Token.moved s.first.start s.first.loc) := by
  have hfirst := List.mem_of_head? p.laid.first
  have hlast := List.mem_of_getLast? p.laid.last
  have hattrs := p.attrs_cuts.inOrder_front
  have hmark := p.mark_cuts.inOrder_front
  have hrest := p.rest_cuts.inOrder_front
  have hmarkStart := p.mark_start
  have hmarkStop := p.mark_stop
  have hlastStop := p.last_stop
  have hinner : ∀ t ∈ p.attrs ++ p.rest, s.owns (t.moved s.first.start s.first.loc) = true := by
    intro t ht
    rw [Site.owns_iff, Token.moved_start, Token.moved_stop]
    rcases List.mem_append.1 ht with ht | ht
    · have := hattrs.mem_bounds ht
      omega
    · have := hrest.mem_bounds ht
      omega
  have hmarked : ∀ t ∈ p.mark, ¬ s.owns (t.moved s.first.start s.first.loc) = true := by
    intro t ht
    have := hmark.mem_bounds ht
    rw [Site.owns_iff, Token.moved_start, Token.moved_stop]
    omega
  have hall := p.tokens_eq ▸ h
  have hbefore : ∀ t ∈ p.before, ¬ s.owns t = true := by
    intro t ht
    have hle := hall.stop_le ht (b := s.first) (by
      rw [← List.append_assoc, List.map_append, List.map_append]
      exact List.mem_append_left _ hfirst)
    have := (hall.mem_bounds (List.mem_append_left _ ht)).2.1
    rw [Site.owns_iff]
    omega
  have hlater : ∀ t ∈ p.later, ¬ s.owns (t.moved s.first.start s.first.loc) = true := by
    intro t ht
    have hbehind := hall.append_right
    rw [← List.append_assoc, ← List.append_assoc, List.map_append] at hbehind
    have hle := hbehind.stop_le (a := s.last) (by simp [hlast]) (List.mem_map_of_mem ht)
    have := (hbehind.append_right.mem_bounds (List.mem_map_of_mem ht)).2.1
    rw [Site.owns_iff]
    omega
  refine (congrArg s.tokens p.tokens_eq).trans ?_
  simp only [Site.tokens, List.map_append, List.filter_append]
  rw [List.filter_eq_nil_iff.2 hbefore,
    List.filter_eq_self.2 (List.forall_mem_map.2 fun t ht => hinner t (List.mem_append_left _ ht)),
    List.filter_eq_nil_iff.2 (List.forall_mem_map.2 hmarked),
    List.filter_eq_self.2 (List.forall_mem_map.2 fun t ht => hinner t (List.mem_append_right _ ht)),
    List.filter_eq_nil_iff.2 (List.forall_mem_map.2 hlater)]
  simp

end Site.Parting

end TraitLift
