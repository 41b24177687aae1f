import Mathlib.Tactic
import TraitLift.Proofs.Expand.Lookahead
import TraitLift.Proofs.Expand.Splice

/-!
Expansion is local to items. A text of complete items and the text behind it have their marked
blocks apart from each other, so they are expanded together as they are apart
(`expandSource_append`): no part of a file changes how another item is expanded or named.
-/

namespace TraitLift

/-! ### Marked blocks of a part -/

theorem Site.expand_text {a b : List Char} {s : Site} (h : s.Within 0 a.length)
    (file : Option String) (c : Config) : s.expand (a ++ b) file c = s.expand a file c := by
  have hmark := h.mark_lt
  have hlast := h.mark_le
  have hhi := h.le_hi
  have hfragment : s.fragment (a ++ b) = s.fragment a := by
    simp only [Site.fragment]
    rw [between_append_left (by omega), between_append_left (by omega), between_append_left hhi]
  simp only [Site.expand, Site.block, hfragment]

section

variable (a b : List Char) (base : Loc) (s : Site) (file : Option String) (c : Config)

theorem Site.fragment_moved : (s.moved a.length base).fragment (a ++ b) = s.fragment b := by
  simp only [Site.fragment, Site.moved, OuterAttr.moved, Token.moved_start, Token.moved_stop,
    between_append_right]

theorem Site.ownText_moved : (s.moved a.length base).ownText (a ++ b) = s.ownText b := by
  simp only [Site.ownText, Site.moved, Token.moved_start, Token.moved_stop, between_append_right]

theorem toOption_mapError {α ε ε' : Type} (f : ε → ε') (r : Except ε α) :
    (r.mapError f).toOption = r.toOption := by
  cases r <;> rfl

theorem Site.args_moved : ((s.moved a.length base).args file).toOption = (s.args file).toOption := by
  unfold Site.args Site.moved OuterAttr.moved
  cases s.mark.args with
  | none => rfl
  | some x =>
    simp only [Option.map_some, AttrArgs.moved]
    cases parseArgs x.text <;> rfl

/-- A moved block is expanded as before; only the report on one that fails has moved. -/
theorem Site.expand_moved :
    ((s.moved a.length base).expand (a ++ b) file c).toOption = (s.expand b file c).toOption := by
  have hargs := s.args_moved a base file
  have hblock : (s.moved a.length base).block (a ++ b) = s.block b := by
    rw [Site.block, Site.block, Site.fragment_moved]
  unfold Site.expand
  rw [hblock]
  cases hs : s.args file with
  | error d =>
    cases hm : (s.moved a.length base).args file with
    | error d' => rfl
    | ok args => simp [hs, hm, Except.toOption] at hargs
  | ok args =>
    cases hm : (s.moved a.length base).args file with
    | error d' => simp [hs, hm, Except.toOption] at hargs
    | ok args' =>
      obtain rfl : args' = args := by simpa [hs, hm, Except.toOption] using hargs
      exact (toOption_mapError ..).trans (toOption_mapError ..).symm

theorem Site.expansion?_moved :
    (s.moved a.length base).expansion? (a ++ b) file c = s.expansion? b file c := by
  rw [Site.expansion?, Site.expansion?, Site.expand_moved]

theorem Site.newText_moved :
    (s.moved a.length base).newText (a ++ b) file c = s.newText b file c := by
  have hmoved := s.expand_moved a b base file c
  unfold Site.newText
  rw [Site.ownText_moved]
  cases hs : s.expand b file c <;>
    cases hm : (s.moved a.length base).expand (a ++ b) file c <;>
    simp_all [Except.toOption]

end

/-- Blocks in a text can be replaced apart from those in the text behind it. -/
theorem replaceSites_append {a b : List Char} {f g : Site → List Char} : ∀ {cursor : Nat}
    {ss ss' : List Site}, cursor ≤ a.length → SitesInOrder cursor a.length ss →
    (∀ s ∈ ss, f s = g s) → SitesInOrder a.length (a ++ b).length ss' →
    replaceSites (a ++ b) f cursor (ss ++ ss') =
      replaceSites a g cursor ss ++ replaceSites (a ++ b) f a.length ss'
  | cursor, [], ss', hle, _, _, h' => by
    have hrest : between (a ++ b) cursor a.length = a.drop cursor := by
      rw [between_append_left (le_refl _), between, List.take_of_length_le (by simp)]
    rw [List.nil_append, ← replaceSites_extend hle h', hrest]
    rfl
  | cursor, s :: ss, ss', _, h, hfg, h' => by
    have hw := h.1
    have hstart : s.first.start ≤ a.length := by
      have := hw.start_le
      have := hw.mark_lt
      have := hw.mark_le
      have := hw.le_hi
      omega
    rw [List.cons_append, replaceSites, replaceSites, hfg s (List.mem_cons_self ..),
      replaceSites_append hw.le_hi h.2 (fun t ht => hfg t (List.mem_cons_of_mem _ ht)) h',
      between_append_left hstart]
    simp only [List.append_assoc]

theorem replaceSites_moved {a b : List Char} {base : Loc} {f g : Site → List Char}
    (hfg : ∀ s, f (s.moved a.length base) = g s) : ∀ (cursor : Nat) (ss : List Site),
    replaceSites (a ++ b) f (cursor + a.length) (ss.map (Site.moved a.length base)) =
      replaceSites b g cursor ss
  | cursor, [] => by
    rw [List.map_nil, replaceSites, replaceSites, Nat.add_comm, List.drop_append,
      List.drop_of_length_le (Nat.le_add_right ..), Nat.add_sub_cancel_left, List.nil_append]
  | cursor, s :: ss => by
    have htail := replaceSites_moved (b := b) hfg s.last.stop ss
    rw [List.map_cons, replaceSites, replaceSites, hfg]
    simp only [Site.moved, Token.moved_start, Token.moved_stop, between_append_right]
    rw [htail]

theorem SitesInOrder.moved (k : Nat) (base : Loc) : ∀ {lo hi : Nat} {ss : List Site},
    SitesInOrder lo hi ss → SitesInOrder (k + lo) (k + hi) (ss.map (Site.moved k base))
  | _, _, [], _ => trivial
  | _, _, s :: ss, h => by
    obtain ⟨⟨h₁, h₂, h₃, h₄, h₅⟩, htail⟩ := h
    have htail := SitesInOrder.moved k base htail
    refine ⟨⟨?_, ?_, ?_, ?_, ?_⟩, ?_⟩
    all_goals simp only [Site.moved, OuterAttr.moved, Token.moved_start, Token.moved_stop]
    · omega
    · omega
    · omega
    · omega
    · omega
    · rwa [Nat.add_comm]

/-! ### Two parts of a text -/

theorem sitesOf_moved (a b : List Char) (base : Loc) (c : Config) (ts : List Token) :
    sitesOf (a ++ b) c (ts.map (Token.moved a.length base)) =
      (sitesOf b c ts).map (Site.moved a.length base) := by
  rw [sitesOf, findings_moved, List.filterMap_map, sitesOf, List.map_filterMap]
  congr
  funext f
  cases f <;> rfl

/-- Problems with marks are reported with the code of malformed marks. -/
theorem isSite_of_quiet {source : String} {ts : List Token} (h : lex source = .ok ts)
    {file : Option String} {c : Config}
    (hquiet : ∀ d ∈ (expandSource source file c).diagnostics, d.phase = some "expand" →
      d.code = some "W-EXT-NAME-COLLISION") :
    ∀ f ∈ findings source.toList c ts, f.IsSite := by
  intro f hf
  cases f with
  | site s => rfl
  | problem e loc =>
    have hd : e.toDiagnostic loc file ∈ (expandSource source file c).diagnostics := by
      rw [expandSource_eq h]
      refine List.mem_append_left _ (List.mem_append_left _ (List.mem_filterMap.2 ⟨_, hf, rfl⟩))
    have := hquiet _ hd rfl
    simp [MarkError.toDiagnostic] at this

theorem sitesOf_inOrder {source : String} {ts : List Token} (h : lex source = .ok ts) (c : Config) :
    SitesInOrder 0 source.toList.length (sitesOf source.toList c ts) := by
  have horder := scan_inOrder source.toList
  rw [lex_eq_ok_iff.1 h] at horder
  exact (findings_inOrder source.toList c horder).1

theorem text_expandSource {source : String} {ts : List Token} (h : lex source = .ok ts)
    (file : Option String) (c : Config) : (expandSource source file c).text =
      String.ofList (replaceSites source.toList (Site.newText source.toList file c) 0
        (sitesOf source.toList c ts)) := by
  rw [expandSource_eq h, ← splice_eq_replaceSites file c (sitesOf_inOrder h c)]

theorem expansions_expandSource {source : String} {ts : List Token} (h : lex source = .ok ts)
    (file : Option String) (c : Config) : (expandSource source file c).expansions =
      (sitesOf source.toList c ts).filterMap (Site.expansion? source.toList file c) := by
  rw [expandSource_eq h]
  exact map_expansion_madeOf ..

/-- Expansion is local to items. Let a text be cut into the same tokens whether or not another one
stands behind it, and let that one be, too; let the first have balanced brackets, end with a closing
brace or a semicolon, and have no mark that cannot be followed. Then the two are expanded together
as they are apart. -/
theorem expandSource_append {a b : String} {ta tb : List Token} {last : Token}
    {file : Option String} {c : Config} (ha : lex a = .ok ta) (hb : lex b = .ok tb)
    (hab : lex (a ++ b) =
      .ok (ta ++ tb.map (Token.moved a.toList.length (Loc.origin.after a.toList))))
    (hbalanced : Balanced ta) (hlast : ta.getLast? = some last)
    (hend : last.kind = .rbrace ∨ last.kind = .semi)
    (hquiet : ∀ d ∈ (expandSource a file c).diagnostics, d.phase = some "expand" →
      d.code = some "W-EXT-NAME-COLLISION") :
    (expandSource (a ++ b) file c).text =
        (expandSource a file c).text ++ (expandSource b file c).text ∧
      (expandSource (a ++ b) file c).expansions =
        (expandSource a file c).expansions ++ (expandSource b file c).expansions := by
  have hcomplete : Complete ta := by
    refine ⟨⟨[], hbalanced⟩, fun t ht => ?_⟩
    obtain rfl : last = t := Option.some.inj (hlast.symm.trans ht)
    exact hend
  have hstart : ∀ t ∈ ta, t.start ≤ a.toList.length := by
    intro t ht
    have horder := scan_inOrder a.toList
    rw [lex_eq_ok_iff.1 ha] at horder
    obtain ⟨-, hlt, hle⟩ := horder.mem_bounds ht
    omega
  set base := Loc.origin.after a.toList
  have hsites : sitesOf (a ++ b).toList c (ta ++ tb.map (Token.moved a.toList.length base)) =
      sitesOf a.toList c ta ++ (sitesOf b.toList c tb).map (Site.moved a.toList.length base) := by
    have hfound : ∀ f ∈ findings (a.toList ++ b.toList) c ta, f.IsSite := by
      rw [findings_text hstart]
      exact isSite_of_quiet ha hquiet
    rw [String.toList_append, ← sitesOf_moved, sitesOf, hcomplete.findings_append hfound,
      List.filterMap_append, findings_text hstart]
    rfl
  have hsa := sitesOf_inOrder ha c
  have hexpand : ∀ s ∈ sitesOf a.toList c ta,
      s.expand (a.toList ++ b.toList) file c = s.expand a.toList file c :=
    fun s hs => Site.expand_text (hsa.within s hs) file c
  constructor
  · have hown : ∀ s ∈ sitesOf a.toList c ta,
        s.newText (a.toList ++ b.toList) file c = s.newText a.toList file c := by
      intro s hs
      unfold Site.newText
      rw [hexpand s hs, Site.ownText, between_append_left (hsa.within s hs).le_hi]
      rfl
    have hsb : SitesInOrder a.toList.length (a.toList ++ b.toList).length
        ((sitesOf b.toList c tb).map (Site.moved a.toList.length base)) := by
      rw [List.length_append]
      exact (sitesOf_inOrder hb c).moved a.toList.length base
    have hmoved := replaceSites_moved (b := b.toList)
      (fun s => s.newText_moved a.toList b.toList base file c) 0 (sitesOf b.toList c tb)
    rw [Nat.zero_add] at hmoved
    rw [text_expandSource hab, text_expandSource ha, text_expandSource hb, hsites,
      String.toList_append, replaceSites_append (Nat.zero_le _) hsa hown hsb, hmoved,
      String.ofList_append]
  · have hfront : (sitesOf a.toList c ta).filterMap
          (Site.expansion? (a.toList ++ b.toList) file c) =
        (sitesOf a.toList c ta).filterMap (Site.expansion? a.toList file c) := by
      refine List.filterMap_congr fun s hs => ?_
      rw [Site.expansion?, Site.expansion?, hexpand s hs]
    rw [expansions_expandSource hab, expansions_expandSource ha, expansions_expandSource hb, hsites,
      String.toList_append, List.filterMap_append, hfront, List.filterMap_map]
    congr 2
    funext s
    exact s.expansion?_moved a.toList b.toList base file c

/-- A block that is lifted and one that stays, behind it. -/
theorem expandSource_append_stays :
    let a := "#[ext(B)] impl A {}"
    let b := "\n#[ext(D)] impl C {} #[ext] impl C { use d; }"
    (expandSource (a ++ b) none Config.default).text =
        (expandSource a none Config.default).text ++ (expandSource b none Config.default).text ∧
      (expandSource (a ++ b) none Config.default).expansions =
        (expandSource a none Config.default).expansions ++
          (expandSource b none Config.default).expansions := by
  intro a b
  let ta := (scan a.toList).tokens
  let tb := (scan b.toList).tokens
  let last := ta.getLast?.getD default
  -- All facts about the texts are evaluated at once, so that each text is scanned once.
  obtain ⟨ha, hb, hab, hbalanced, hlast, hend, hquiet⟩ :
      scan a.toList = ⟨ta, none⟩ ∧ scan b.toList = ⟨tb, none⟩ ∧
        scan (a ++ b).toList =
          ⟨ta ++ tb.map (Token.moved a.toList.length (Loc.origin.after a.toList)), none⟩ ∧
        Balanced ta ∧ ta.getLast? = some last ∧ (last.kind = .rbrace ∨ last.kind = .semi) ∧
        ∀ d ∈ (expandSource a none Config.default).diagnostics, d.phase = some "expand" →
          d.code = some "W-EXT-NAME-COLLISION" := by
    decide +kernel
  exact expandSource_append (lex_eq_ok_iff.2 ha) (lex_eq_ok_iff.2 hb) (lex_eq_ok_iff.2 hab) hbalanced hlast
    hend hquiet

end TraitLift
