import Mathlib.Tactic
import TraitLift.Text.Json

/-!
A JSON text stands for one value only (`Json.render_injective`). The text of a value, whatever stands
behind it, tells both the value and what stands behind it (`Json.eq_of_render`), unless a number runs
into digits.
-/

namespace TraitLift.Text

/-! ### Escapes -/

theorem digitChar_injective : ∀ a < 16, ∀ b < 16, Nat.digitChar a = Nat.digitChar b → a = b := by
  decide

@[simp] theorem length_hex : ∀ width n : Nat, (hex width n).length = width
  | 0, _ => rfl
  | width + 1, n => by simp [hex, length_hex width]

/-- The last digits of a number tell its residue. -/
theorem mod_eq_of_hex : ∀ {width m n : Nat}, hex width m = hex width n →
    m % 16 ^ width = n % 16 ^ width
  | 0, m, n, _ => by omega
  | width + 1, m, n, h => by
    obtain ⟨hfront, hlast⟩ := List.append_inj' h rfl
    have hdigit := digitChar_injective _ (Nat.mod_lt m (by decide)) _ (Nat.mod_lt n (by decide))
      (List.cons.inj hlast).1
    rw [Nat.pow_succ', Nat.mod_mul, Nat.mod_mul, hdigit, mod_eq_of_hex hfront]

namespace Json

theorem eq_of_unit {m n : Nat} {x y : List Char} (hm : m < 0x10000) (hn : n < 0x10000)
    (h : unit m ++ x = unit n ++ y) : m = n ∧ x = y := by
  obtain ⟨hhex, hrest⟩ := List.append_inj (List.cons.inj (List.cons.inj h).2).2 (by simp)
  have hmod := mod_eq_of_hex hhex
  exact ⟨by omega, hrest⟩

/-- The code units of a character: one, or two for a character beyond the first plane. -/
def units (c : Char) : List Nat :=
  if c.toNat < 0x10000 then [c.toNat]
  else [0xD800 + (c.toNat - 0x10000) / 0x400, 0xDC00 + (c.toNat - 0x10000) % 0x400]

theorem toNat_bounds (c : Char) : c.toNat < 0xD800 ∨ 0xDFFF < c.toNat ∧ c.toNat < 0x110000 :=
  c.valid

/-- Code units tell the character and where it ends: a character of its own never is the first of two
units. -/
theorem eq_of_units {c d : Char} {x y : List Char}
    (h : (units c).flatMap unit ++ x = (units d).flatMap unit ++ y) : c = d ∧ x = y := by
  have hc := toNat_bounds c
  have hd := toNat_bounds d
  have heq : ∀ {x y}, c.toNat = d.toNat ∧ x = y → c = d ∧ x = (y : List Char) :=
    fun hnat => ⟨Char.toNat_inj.1 hnat.1, hnat.2⟩
  unfold units at h
  split at h <;> split at h <;>
    simp only [List.flatMap_cons, List.flatMap_nil, List.append_nil, List.append_assoc] at h
  · exact heq (eq_of_unit (by omega) (by omega) h)
  · have := (eq_of_unit (by omega) (by omega) h).1
    omega
  · have := (eq_of_unit (by omega) (by omega) h).1
    omega
  · obtain ⟨hhigh, h⟩ := eq_of_unit (by omega) (by omega) h
    obtain ⟨hlow, h⟩ := eq_of_unit (by omega) (by omega) h
    exact heq ⟨by omega, h⟩

/-- The character that a letter behind a backslash stands for. -/
def unescaped (e : Char) : Char :=
  if e = 'n' then '\n' else if e = 'r' then '\r' else if e = 't' then '\t'
  else if e = 'b' then '\x08' else if e = 'f' then '\x0c' else e

/-- A character of a string stands for itself, or is written with a letter behind a backslash, or as its
code units. -/
theorem char_cases (c : Char) : char c = [c] ∧ c ≠ '\\' ∧ c ≠ '"' ∨
    (∃ e, char c = ['\\', e] ∧ e ≠ 'u' ∧ unescaped e = c) ∨ char c = (units c).flatMap unit := by
  have hescaped : ∀ {e d : Char}, c = d → e ≠ 'u' → unescaped e = d →
      (['\\', e] = [c] ∧ c ≠ '\\' ∧ c ≠ '"') ∨
        (∃ e', ['\\', e] = ['\\', e'] ∧ e' ≠ 'u' ∧ unescaped e' = c) ∨
          ['\\', e] = (units c).flatMap unit :=
    fun hc he hd => .inr (.inl ⟨_, rfl, he, hd.trans hc.symm⟩)
  rw [char]
  by_cases hself : (c = '"' || c = '\\') = true
  · rw [if_pos hself]
    rcases Bool.or_eq_true_iff.1 hself with hc | hc <;> rw [of_decide_eq_true hc] <;>
      exact .inr (.inl ⟨_, rfl, by decide, by decide⟩)
  rw [if_neg hself]
  by_cases hn : c = '\n'
  · rw [if_pos hn]
    exact hescaped hn (by decide) (by decide)
  rw [if_neg hn]
  by_cases hr : c = '\r'
  · rw [if_pos hr]
    exact hescaped hr (by decide) (by decide)
  rw [if_neg hr]
  by_cases ht : c = '\t'
  · rw [if_pos ht]
    exact hescaped ht (by decide) (by decide)
  rw [if_neg ht]
  by_cases hb : c = '\x08'
  · rw [if_pos hb]
    exact hescaped hb (by decide) (by decide)
  rw [if_neg hb]
  by_cases hf : c = '\x0c'
  · rw [if_pos hf]
    exact hescaped hf (by decide) (by decide)
  rw [if_neg hf]
  by_cases hplain : (0x20 ≤ c.toNat && c.toNat ≤ 0x7E) = true
  · rw [if_pos hplain]
    obtain ⟨hquote, hslash⟩ := not_or.1 (mt Bool.or_eq_true_iff.2 hself)
    exact .inl ⟨rfl, fun hc => hslash (decide_eq_true hc), fun hc => hquote (decide_eq_true hc)⟩
  rw [if_neg hplain]
  refine .inr (.inr ?_)
  by_cases hlow : c.toNat < 0x10000
  · rw [if_pos hlow, units, if_pos hlow, List.flatMap_singleton]
  · rw [if_neg hlow, units, if_neg hlow, List.flatMap_cons, List.flatMap_singleton]

theorem units_cons (c : Char) : ∃ us, (units c).flatMap unit = '\\' :: 'u' :: us := by
  unfold units
  split <;> exact ⟨_, rfl⟩

/-- A character of a string tells the character and where it ends. -/
theorem eq_of_char {c d : Char} {x y : List Char} (h : char c ++ x = char d ++ y) :
    c = d ∧ x = y := by
  obtain ⟨us, hus⟩ := units_cons c
  obtain ⟨vs, hvs⟩ := units_cons d
  rcases char_cases c with ⟨hc, hne, -⟩ | ⟨e, hc, he, hec⟩ | hc <;>
    rcases char_cases d with ⟨hd, hne', -⟩ | ⟨e', hd, he', hec'⟩ | hd <;> rw [hc, hd] at h
  · simpa using h
  · exact absurd (List.cons.inj h).1 hne
  · rw [hvs] at h
    exact absurd (List.cons.inj h).1 hne
  · exact absurd (List.cons.inj h).1.symm hne'
  · obtain ⟨rfl, hrest⟩ := List.cons.inj (List.cons.inj h).2
    exact ⟨hec.symm.trans hec', hrest⟩
  · rw [hvs] at h
    exact absurd (List.cons.inj (List.cons.inj h).2).1 he
  · rw [hus] at h
    exact absurd (List.cons.inj h).1.symm hne'
  · rw [hus] at h
    exact absurd (List.cons.inj (List.cons.inj h).2).1.symm he'
  · exact eq_of_units h

/-- No character of a string is taken for the closing mark. -/
theorem char_ne_mark (c : Char) (x y : List Char) : char c ++ x ≠ '"' :: y := by
  intro h
  rcases char_cases c with ⟨hc, -, hne⟩ | ⟨e, hc, -⟩ | hc <;> rw [hc] at h
  · exact hne (List.cons.inj h).1
  · exact absurd (List.cons.inj h).1 (by decide)
  · obtain ⟨us, hus⟩ := units_cons c
    rw [hus] at h
    exact absurd (List.cons.inj h).1 (by decide)

theorem eq_of_chars : ∀ {cs ds x y : List Char},
    cs.flatMap char ++ '"' :: x = ds.flatMap char ++ '"' :: y → cs = ds ∧ x = y
  | [], [], _, _, h => ⟨rfl, (List.cons.inj h).2⟩
  | [], d :: ds, _, _, h => by
    rw [List.flatMap_cons, List.append_assoc] at h
    exact absurd h.symm (char_ne_mark d _ _)
  | c :: cs, [], _, _, h => by
    rw [List.flatMap_cons, List.append_assoc] at h
    exact absurd h (char_ne_mark c _ _)
  | c :: cs, d :: ds, _, _, h => by
    rw [List.flatMap_cons, List.flatMap_cons, List.append_assoc, List.append_assoc] at h
    obtain ⟨rfl, hrest⟩ := eq_of_char h
    obtain ⟨rfl, hend⟩ := eq_of_chars hrest
    exact ⟨rfl, hend⟩

theorem toList_string (s : String) :
    (string s).toList = '"' :: (s.toList.flatMap char ++ ['"']) := by
  simp [string]

theorem eq_of_string {s t : String} {x y : List Char}
    (h : (string s).toList ++ x = (string t).toList ++ y) : s = t ∧ x = y := by
  rw [toList_string, toList_string, List.cons_append, List.cons_append, List.append_assoc,
    List.append_assoc] at h
  obtain ⟨hchars, hrest⟩ := eq_of_chars (List.cons.inj h).2
  exact ⟨String.toList_inj.1 hchars, hrest⟩

/-! ### Numbers -/

/-- Characters of a number. -/
def isNumeric (c : Char) : Bool := c.isDigit || c = '-'

/-- What stands behind a value is no part of a number. -/
def Apart (x : List Char) : Prop := ∀ c ∈ x.head?, isNumeric c = false

/-- A number is written as its digits, with a minus sign in front of a negative one. -/
theorem toList_number (n : Int) : (∃ m : Nat, n = m ∧ (toString n).toList = Nat.toDigits 10 m) ∨
    ∃ m : Nat, n = -m ∧ (toString n).toList = '-' :: Nat.toDigits 10 m := by
  rw [Int.toString_eq_repr]
  cases n with
  | ofNat m => exact .inl ⟨m, rfl, by simp [Int.repr.eq_def]⟩
  | negSucc m => exact .inr ⟨m.succ, rfl, by simp [Int.repr.eq_def]⟩

theorem isDigit_of_mem {m : Nat} {c : Char} (hc : c ∈ Nat.toDigits 10 m) : c.isDigit = true :=
  Nat.isDigit_of_mem_toDigits (by decide) (by decide) hc

theorem isNumeric_of_mem {n : Int} {c : Char} (hc : c ∈ (toString n).toList) :
    isNumeric c = true := by
  rcases toList_number n with ⟨m, -, htext⟩ | ⟨m, -, htext⟩ <;> rw [htext] at hc
  · simp [isNumeric, isDigit_of_mem hc]
  · rcases List.mem_cons.1 hc with rfl | hc
    · rfl
    · simp [isNumeric, isDigit_of_mem hc]

/-- The text of a number starts with a character of a number. -/
theorem exists_number_cons (n : Int) : ∃ c cs, (toString n).toList = c :: cs ∧ isNumeric c = true := by
  cases htext : (toString n).toList with
  | nil =>
    rcases toList_number n with ⟨m, -, h⟩ | ⟨m, -, h⟩ <;> rw [htext] at h
    · exact absurd h.symm Nat.toDigits_ne_nil
    · cases h
  | cons c cs => exact ⟨c, cs, rfl, isNumeric_of_mem (by rw [htext]; exact List.mem_cons_self)⟩

theorem toDigits_injective {m n : Nat} (h : Nat.toDigits 10 m = Nat.toDigits 10 n) : m = n := by
  rw [← Nat.ofDigitChars_toDigits (b := 10) (n := m) (by decide) (by decide), h,
    Nat.ofDigitChars_toDigits (by decide) (by decide)]

/-- The digits of a number have no minus sign in front. -/
theorem toDigits_ne_minus {m : Nat} {cs : List Char} : Nat.toDigits 10 m ≠ '-' :: cs := by
  intro h
  have hminus : ('-' : Char).isDigit = true := isDigit_of_mem (m := m) (by simp [h])
  simp at hminus

theorem eq_of_toList_number {m n : Int} (h : (toString m).toList = (toString n).toList) : m = n := by
  rcases toList_number m with ⟨a, rfl, ha⟩ | ⟨a, rfl, ha⟩ <;>
    rcases toList_number n with ⟨b, rfl, hb⟩ | ⟨b, rfl, hb⟩ <;> rw [ha, hb] at h
  · rw [toDigits_injective h]
  · exact absurd h toDigits_ne_minus
  · exact absurd h.symm toDigits_ne_minus
  · rw [toDigits_injective (List.cons.inj h).2]

/-- Texts that are told from what stands behind them by their characters. -/
theorem eq_of_append_of_all {p : Char → Bool} : ∀ {cs ds x y : List Char}, (∀ c ∈ cs, p c = true) →
    (∀ c ∈ ds, p c = true) → (∀ c ∈ x.head?, p c = false) → (∀ c ∈ y.head?, p c = false) →
    cs ++ x = ds ++ y → cs = ds ∧ x = y
  | [], [], _, _, _, _, _, _, h => ⟨rfl, h⟩
  | [], d :: ds, x, _, _, hds, hx, _, h => by
    obtain rfl : x = d :: (ds ++ _) := h
    simp [hds d List.mem_cons_self] at hx
  | c :: cs, [], _, y, hcs, _, _, hy, h => by
    obtain rfl : c :: (cs ++ _) = y := h
    simp [hcs c List.mem_cons_self] at hy
  | c :: cs, d :: ds, _, _, hcs, hds, hx, hy, h => by
    obtain ⟨rfl, htail⟩ := List.cons.inj h
    obtain ⟨rfl, hrest⟩ := eq_of_append_of_all (fun a ha => hcs a (List.mem_cons_of_mem c ha))
      (fun a ha => hds a (List.mem_cons_of_mem c ha)) hx hy htail
    exact ⟨rfl, hrest⟩

theorem eq_of_number {m n : Int} {x y : List Char} (hx : Apart x) (hy : Apart y)
    (h : (toString m).toList ++ x = (toString n).toList ++ y) : m = n ∧ x = y := by
  obtain ⟨htext, hrest⟩ := eq_of_append_of_all (fun _ => isNumeric_of_mem)
    (fun _ => isNumeric_of_mem) hx hy h
  exact ⟨eq_of_toList_number htext, hrest⟩

/-! ### Lists -/

section

variable {α : Type} {f : α → String} {close : Char}

/-- More texts of a list, each behind a comma, and the closing sign. -/
def more (close : Char) (ss : List String) : List Char :=
  ss.flatMap (fun s => ',' :: ' ' :: s.toList) ++ [close]

/-- The texts of a list and the closing sign. -/
def listed (close : Char) : List String → List Char
  | [] => [close]
  | s :: ss => s.toList ++ more close ss

theorem toList_intercalate (close : Char) : ∀ ss : List String,
    (", ".intercalate ss).toList ++ [close] = listed close ss
  | [] => rfl
  | [s] => by simp [listed, more]
  | s :: t :: ss => by
    have ih := toList_intercalate close (t :: ss)
    rw [listed, more] at ih
    rw [String.intercalate_cons_cons, String.toList_append, List.append_assoc, ih]
    simp [listed, more]

theorem more_cons (close : Char) (s : String) (ss : List String) :
    more close (s :: ss) = ',' :: ' ' :: (s.toList ++ more close ss) := by
  simp [more]

theorem apart_more (hclose : isNumeric close = false) (ss : List String) (x : List Char) :
    Apart (more close ss ++ x) := by
  cases ss with
  | nil => simpa [Apart, more] using hclose
  | cons s ss => simp [Apart, more_cons, isNumeric]

/-- The text of `a` tells it, and what stands behind it. -/
def Told (f : α → String) (a : α) : Prop :=
  ∀ ⦃b : α⦄ ⦃x y : List Char⦄, Apart x → Apart y → (f a).toList ++ x = (f b).toList ++ y →
    a = b ∧ x = y

theorem eq_of_more (hnumeric : isNumeric close = false) (hcomma : close ≠ ',') {x y : List Char} :
    ∀ {as bs : List α}, (∀ a ∈ as, Told f a) →
      more close (as.map f) ++ x = more close (bs.map f) ++ y → as = bs ∧ x = y
  | [], [], _, h => ⟨rfl, (List.cons.inj h).2⟩
  | [], _ :: _, _, h => absurd (List.cons.inj h).1 hcomma
  | _ :: _, [], _, h => absurd (List.cons.inj h).1.symm hcomma
  | a :: as, b :: bs, htold, h => by
    rw [List.map_cons, List.map_cons, more_cons, more_cons] at h
    rw [List.cons_append, List.cons_append, List.cons_append, List.cons_append, List.append_assoc,
      List.append_assoc] at h
    obtain ⟨rfl, hmore⟩ := htold a List.mem_cons_self (apart_more hnumeric _ _)
      (apart_more hnumeric _ _) (List.cons.inj (List.cons.inj h).2).2
    obtain ⟨rfl, hrest⟩ := eq_of_more hnumeric hcomma
      (fun a' ha => htold a' (List.mem_cons_of_mem a ha)) hmore
    exact ⟨rfl, hrest⟩

/-- The texts of a list tell it if each of them does, and none starts with the closing sign. -/
theorem eq_of_listed (hnumeric : isNumeric close = false) (hcomma : close ≠ ',') {x y : List Char}
    (hstart : ∀ a, ∃ c cs, (f a).toList = c :: cs ∧ c ≠ close) {as bs : List α}
    (htold : ∀ a ∈ as, Told f a)
    (h : listed close (as.map f) ++ x = listed close (bs.map f) ++ y) : as = bs ∧ x = y := by
  cases as with
  | nil =>
    cases bs with
    | nil => exact ⟨rfl, (List.cons.inj h).2⟩
    | cons b bs =>
      obtain ⟨c, cs, hb, hne⟩ := hstart b
      rw [List.map_cons, listed, hb] at h
      exact absurd (List.cons.inj h).1.symm hne
  | cons a as =>
    cases bs with
    | nil =>
      obtain ⟨c, cs, ha, hne⟩ := hstart a
      rw [List.map_cons, listed, ha] at h
      exact absurd (List.cons.inj h).1 hne
    | cons b bs =>
      rw [List.map_cons, List.map_cons, listed, listed, List.append_assoc, List.append_assoc] at h
      obtain ⟨rfl, hmore⟩ := htold a List.mem_cons_self (apart_more hnumeric _ _)
        (apart_more hnumeric _ _) h
      obtain ⟨rfl, hrest⟩ := eq_of_more hnumeric hcomma
        (fun a' ha => htold a' (List.mem_cons_of_mem a ha)) hmore
      exact ⟨rfl, hrest⟩

end

/-! ### Values -/

/-- A field of an object as text. -/
def field (f : String × Json) : String := string f.1 ++ ": " ++ f.2.render

theorem renderAll_eq_map : ∀ xs : List Json, renderAll xs = xs.map render
  | [] => rfl
  | x :: xs => by rw [renderAll, renderAll_eq_map xs, List.map_cons]

theorem renderFields_eq_map : ∀ fs : List (String × Json), renderFields fs = fs.map field
  | [] => rfl
  | (k, v) :: fs => by rw [renderFields, renderFields_eq_map fs, List.map_cons, field]

theorem toList_render_list (xs : List Json) :
    (list xs).render.toList = '[' :: listed ']' (xs.map render) := by
  rw [← toList_intercalate, render, renderAll_eq_map]
  simp

theorem toList_render_object (fs : List (String × Json)) :
    (object fs).render.toList = '\x7b' :: listed '\x7d' (fs.map field) := by
  rw [← toList_intercalate, render, renderFields_eq_map]
  simp

/-- What the text of a value starts with tells its sort. -/
def lead : Json → Char → Bool
  | null, c => c = 'n'
  | int _, c => isNumeric c
  | str _, c => c = '"'
  | list _, c => c = '['
  | object _, c => c = '\x7b'

theorem exists_render_cons (v : Json) : ∃ c cs, v.render.toList = c :: cs ∧ v.lead c = true := by
  cases v with
  | null => exact ⟨'n', _, rfl, rfl⟩
  | int n => exact exists_number_cons n
  | str s => exact ⟨'"', _, toList_string s, rfl⟩
  | list xs => exact ⟨'[', _, toList_render_list xs, rfl⟩
  | object fs => exact ⟨'\x7b', _, toList_render_object fs, rfl⟩

/-- Values with the same text in front are of the same sort. -/
theorem lead_of_render {v w : Json} {x y : List Char}
    (h : v.render.toList ++ x = w.render.toList ++ y) : ∃ c, v.lead c = true ∧ w.lead c = true := by
  obtain ⟨c, cs, hv, hc⟩ := exists_render_cons v
  obtain ⟨d, ds, hw, hd⟩ := exists_render_cons w
  rw [hv, hw] at h
  exact ⟨c, hc, (List.cons.inj h).1 ▸ hd⟩

/-- No value starts like the end of a list. -/
theorem render_ne_close (v : Json) : ∃ c cs, v.render.toList = c :: cs ∧ c ≠ ']' := by
  obtain ⟨c, cs, hv, hc⟩ := exists_render_cons v
  refine ⟨c, cs, hv, ?_⟩
  rintro rfl
  cases v <;> simp [lead, isNumeric] at hc

theorem field_ne_close (f : String × Json) : ∃ c cs, (field f).toList = c :: cs ∧ c ≠ '\x7d' :=
  ⟨'"', _, by rw [field, String.toList_append, String.toList_append, toList_string]; rfl, by decide⟩

/-- A field is told by its name and its value. -/
theorem told_field {f : String × Json} (h : Told render f.2) : Told field f := by
  intro g x y hx hy heq
  simp only [field, String.toList_append, List.append_assoc] at heq
  obtain ⟨hkey, hrest⟩ := eq_of_string heq
  obtain ⟨hvalue, hend⟩ := h hx hy (List.append_cancel_left hrest)
  exact ⟨Prod.ext hkey hvalue, hend⟩

mutual

/-- The text of a value tells it, and what stands behind it. -/
theorem told : ∀ v : Json, Told render v
  | null => by
    intro w x y _ _ h
    obtain ⟨c, hc, hw⟩ := lead_of_render h
    obtain rfl := of_decide_eq_true hc
    cases w with
    | null => exact ⟨rfl, List.append_cancel_left h⟩
    | int | str | list | object => simp [lead, isNumeric] at hw
  | int m => by
    intro w x y hx hy h
    obtain ⟨c, hc, hw⟩ := lead_of_render h
    cases w with
    | int n =>
      obtain ⟨rfl, hrest⟩ := eq_of_number hx hy h
      exact ⟨rfl, hrest⟩
    | null | str | list | object =>
      obtain rfl := of_decide_eq_true hw
      simp [lead, isNumeric] at hc
  | str s => by
    intro w x y _ _ h
    obtain ⟨c, hc, hw⟩ := lead_of_render h
    obtain rfl := of_decide_eq_true hc
    cases w with
    | str t =>
      obtain ⟨rfl, hrest⟩ := eq_of_string h
      exact ⟨rfl, hrest⟩
    | null | int | list | object => simp [lead, isNumeric] at hw
  | list xs => by
    intro w x y _ _ h
    obtain ⟨c, hc, hw⟩ := lead_of_render h
    obtain rfl := of_decide_eq_true hc
    cases w with
    | list ys =>
      rw [toList_render_list, toList_render_list] at h
      obtain ⟨rfl, hrest⟩ := eq_of_listed (by decide) (by decide) render_ne_close (told_all xs)
        (List.cons.inj h).2
      exact ⟨rfl, hrest⟩
    | null | int | str | object => simp [lead, isNumeric] at hw
  | object fs => by
    intro w x y _ _ h
    obtain ⟨c, hc, hw⟩ := lead_of_render h
    obtain rfl := of_decide_eq_true hc
    cases w with
    | object gs =>
      rw [toList_render_object, toList_render_object] at h
      obtain ⟨rfl, hrest⟩ := eq_of_listed (by decide) (by decide) field_ne_close
        (fun f hf => told_field (told_fields fs f hf)) (List.cons.inj h).2
      exact ⟨rfl, hrest⟩
    | null | int | str | list => simp [lead, isNumeric] at hw

theorem told_all : ∀ xs : List Json, ∀ v ∈ xs, Told render v
  | [], _, hv => by simp at hv
  | x :: xs, v, hv => by
    rcases List.mem_cons.1 hv with hx | hv
    · exact hx ▸ told x
    · exact told_all xs v hv

theorem told_fields : ∀ fs : List (String × Json), ∀ f ∈ fs, Told render f.2
  | [], _, hf => by simp at hf
  | (k, v) :: fs, f, hf => by
    rcases List.mem_cons.1 hf with hv | hf
    · exact hv ▸ told v
    · exact told_fields fs f hf

end

/-- A text is the text of one value at most. -/
theorem render_injective {v w : Json} (h : v.render = w.render) : v = w :=
  (@told v w [] [] (by simp [Apart]) (by simp [Apart]) (by rw [h])).1

end Json

end TraitLift.Text
