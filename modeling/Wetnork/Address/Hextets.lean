import Wetnork.Address.Quad

/-! `inet_pton` for `AF_INET6`, against the grammar of the texts it is documented to take. -/
namespace Wetnork.Inet

open Numerals

/-- A group as it is stored. -/
def word (val : ℕ) : Bytes := [UInt8.ofNat (val / 256), UInt8.ofNat val]

@[simp] theorem length_word (val : ℕ) : (word val).length = 2 := rfl

/-- One to four hexadecimal digits. -/
structure Hextet (text : List Char) (bytes : Bytes) : Prop where
  nonempty : text ≠ []
  short : text.length ≤ 4
  digits : ∀ c ∈ text, (digit? 16 c).isSome
  stored : bytes = word (value 16 text)

/-- What may stand at the end of an address: a group, or a dotted quad. -/
def Ends (text : List Char) (bytes : Bytes) : Prop :=
  Hextet text bytes ∨ (bytes.length = 4 ∧ text = inetNtop4 bytes)

/-- Groups with colons between them; `last` says what the last one may be. -/
inductive Groups (last : List Char → Bytes → Prop) : List Char → Bytes → Prop where
  | one {text : List Char} {bytes : Bytes} (h : last text bytes) : Groups last text bytes
  | more {text rest : List Char} {bytes others : Bytes} (h : Hextet text bytes)
      (hs : Groups last rest others) : Groups last (text ++ ':' :: rest) (bytes ++ others)

/-- One side of a double colon. -/
def Half (last : List Char → Bytes → Prop) (text : List Char) (bytes : Bytes) : Prop :=
  (text = [] ∧ bytes = []) ∨ Groups last text bytes

/-- The texts of IPv6 addresses: eight groups, or a double colon for as many groups of zeros as
are missing, at least one. -/
inductive Denotes6 : List Char → Bytes → Prop where
  | full {text : List Char} {bytes : Bytes} (h : Groups Ends text bytes)
      (hl : bytes.length = 16) : Denotes6 text bytes
  | compressed {left right : List Char} {high low : Bytes} (hh : Half Hextet left high)
      (hl : Half Ends right low) (hs : high.length + low.length < 16) :
      Denotes6 (left ++ ':' :: ':' :: right)
        (high ++ List.replicate (16 - (high.length + low.length)) 0 ++ low)

/-- The variables of the loop. `tp` stands for the bytes stored before it. -/
structure Parsing where
  tp : Bytes
  colonp : Option ℕ
  curtok : List Char
  xdigitsSeen : ℕ
  val : ℕ
deriving DecidableEq, Repr

namespace Parsing

/-- The loop over the characters; `inet_pton4` reads what is left from `curtok` on. -/
def loop : List Char → Parsing → Option Parsing
  | [], st => some st
  | ch :: src, st =>
    match digit? 16 ch with
    | some digit =>
      let val := st.val * 16 + digit
      if st.xdigitsSeen = 4 then none
      else if val > 0xffff then none
      else loop src { st with val := val, xdigitsSeen := st.xdigitsSeen + 1 }
    | none =>
      if ch = ':' then
        if st.xdigitsSeen = 0 then
          if st.colonp.isSome then none
          else loop src { st with curtok := src, colonp := some st.tp.length }
        else if src = [] then none
        else if st.tp.length + 2 > 16 then none
        else loop src
          { st with curtok := src, tp := st.tp ++ word st.val, xdigitsSeen := 0, val := 0 }
      else if ch = '.' ∧ st.tp.length + 4 ≤ 16 then
        match inetPton4 st.curtok with
        | some quad => some { st with tp := st.tp ++ quad, xdigitsSeen := 0 }
        | none => none
      else none

/-- Stores the group at the end of the text. -/
def close (st : Parsing) : Option Parsing :=
  if st.xdigitsSeen > 0 then
    if st.tp.length + 2 > 16 then none else some { st with tp := st.tp ++ word st.val }
  else some st

/-- Replaces the double colon by zeros. -/
def expand (st : Parsing) : Option Bytes :=
  match st.colonp with
  | some colonp =>
    if st.tp.length = 16 then none
    else some (st.tp.take colonp ++ List.replicate (16 - st.tp.length) 0 ++ st.tp.drop colonp)
  | none => if st.tp.length = 16 then some st.tp else none

/-- Of a leading double colon the loop gets only the second one. -/
def opening : List Char → Option (List Char)
  | [] => none
  | ':' :: src => if src.head? = some ':' then some src else none
  | src => some src

end Parsing

/-- `inet_pton(AF_INET6, …)`: the sixteen bytes, or `none` for a result other than 1. -/
def inetPton6 (src : List Char) : Option Bytes := do
  let src ← Parsing.opening src
  let st ← Parsing.loop src ⟨[], none, src, 0, 0⟩
  let st ← st.close
  st.expand

/-- Groups each followed by a colon. -/
inductive Colons : List Char → Bytes → Prop where
  | nil : Colons [] []
  | cons {text rest : List Char} {bytes others : Bytes} (h : Hextet text bytes)
      (hs : Colons rest others) : Colons (text ++ ':' :: rest) (bytes ++ others)

variable {text rest pre part src : List Char} {bytes others : Bytes} {c : Char}
  {last : List Char → Bytes → Prop} {st fin : Parsing}

theorem colons_append (h : Colons text bytes) (hs : Colons rest others) :
    Colons (text ++ rest) (bytes ++ others) := by
  induction h with
  | nil => exact hs
  | cons h _ ih =>
    rw [List.append_assoc, List.append_assoc, List.cons_append]
    exact .cons h ih

theorem colons_concat (h : Colons text bytes) (hr : Hextet rest others) :
    Colons (text ++ rest ++ [':']) (bytes ++ others) := by
  have := colons_append h (.cons hr .nil)
  simpa using this

theorem groups_of_colons (h : Colons text bytes) (hl : last rest others) :
    Groups last (text ++ rest) (bytes ++ others) := by
  induction h with
  | nil => exact .one hl
  | cons h _ ih =>
    rw [List.append_assoc, List.append_assoc, List.cons_append]
    exact .more h ih

theorem colons_of_groups (h : Groups last text bytes) :
    ∃ pre rest high low, Colons pre high ∧ last rest low ∧ text = pre ++ rest ∧
      bytes = high ++ low := by
  induction h with
  | one h => exact ⟨[], _, [], _, .nil, h, rfl, rfl⟩
  | more h _ ih =>
    obtain ⟨pre, rest, high, low, hc, hl, rfl, rfl⟩ := ih
    exact ⟨_, rest, _, low, .cons h hc, hl, by simp, by simp⟩

/-- What stands in front of a double colon, with the first of the two. -/
theorem half_of_colons (h : Colons text bytes) :
    (text = [] ∧ bytes = []) ∨ ∃ left, text = left ++ [':'] ∧ Groups Hextet left bytes := by
  induction h with
  | nil => exact Or.inl ⟨rfl, rfl⟩
  | @cons text rest bytes others h _ ih =>
    right
    rcases ih with ⟨rfl, rfl⟩ | ⟨left, rfl, hg⟩
    · exact ⟨text, rfl, by simpa using .one h⟩
    · exact ⟨text ++ ':' :: left, by simp, .more h hg⟩

/-- The text read so far, up to the group that is being read. -/
def Consumed (pre : List Char) (tp : Bytes) : Option ℕ → Prop
  | none => Colons pre tp
  | some colonp => ∃ left right, pre = left ++ ':' :: right ∧ colonp ≤ tp.length ∧
      Colons left (tp.take colonp) ∧ Colons right (tp.drop colonp)

/-- What the loop keeps: `pre` has been stored, `part` is the group that is being read. -/
structure Reading (pre part src : List Char) (st : Parsing) : Prop where
  curtok : st.curtok = part ++ src
  seen : st.xdigitsSeen = part.length
  short : part.length ≤ 4
  digits : ∀ c ∈ part, (digit? 16 c).isSome
  val : st.val = value 16 part
  consumed : Consumed pre st.tp st.colonp
  room : st.tp.length ≤ 16

/-- A text that has been read to its end and stored. -/
def Stored (text : List Char) (tp : Bytes) (colonp : Option ℕ) : Prop :=
  (∃ pre rest high low, text = pre ++ rest ∧ Ends rest low ∧ tp = high ++ low ∧
    Consumed pre high colonp) ∨ (colonp = some tp.length ∧ Consumed text tp colonp)

theorem consumed_concat {tp : Bytes} {colonp : Option ℕ} (h : Consumed pre tp colonp)
    (hr : Hextet rest others) : Consumed (pre ++ rest ++ [':']) (tp ++ others) colonp := by
  cases colonp with
  | none => exact colons_concat h hr
  | some colonp =>
    obtain ⟨left, right, rfl, hle, hl, hr'⟩ := h
    refine ⟨left, right ++ rest ++ [':'], by simp, ?_, ?_, ?_⟩
    · rw [List.length_append]
      omega
    · rwa [List.take_append_of_le_length hle]
    · rw [List.drop_append_of_le_length hle]
      exact colons_concat hr' hr

theorem reading_hextet (h : Reading pre part src st) (hne : part ≠ []) :
    Hextet part (word st.val) := ⟨hne, h.short, h.digits, by rw [h.val]⟩

theorem reading_digit {digit : ℕ} (h : Reading pre part (c :: src) st)
    (hd : digit? 16 c = some digit) (hfour : st.xdigitsSeen ≠ 4) :
    Reading pre (part ++ [c]) src
      { st with val := st.val * 16 + digit, xdigitsSeen := st.xdigitsSeen + 1 } := by
  have hseen := h.seen
  have hshort := h.short
  refine ⟨?_, ?_, ?_, ?_, ?_, h.consumed, h.room⟩
  · simp [h.curtok]
  · simp [hseen]
  · simp only [List.length_append, List.length_singleton]
    omega
  · intro d hmem
    rcases List.mem_append.mp hmem with hmem | hmem
    · exact h.digits d hmem
    · rw [List.mem_singleton.mp hmem, hd]
      rfl
  · rw [value_concat, hd, Option.getD_some, h.val]

/-- The second of two colons. -/
theorem reading_double (h : Reading pre [] (':' :: src) st) (hn : st.colonp = none) :
    Reading (pre ++ [':']) [] src { st with curtok := src, colonp := some st.tp.length } := by
  have hc := h.consumed
  rw [hn] at hc
  refine ⟨rfl, h.seen, h.short, h.digits, h.val, ⟨pre, [], rfl, le_rfl, ?_, ?_⟩, h.room⟩
  · rwa [List.take_length]
  · rw [List.drop_length]
    exact .nil

theorem reading_colon (h : Reading pre part (':' :: src) st) (hne : part ≠ [])
    (hroom : ¬ st.tp.length + 2 > 16) :
    Reading (pre ++ part ++ [':']) [] src
      { st with curtok := src, tp := st.tp ++ word st.val, xdigitsSeen := 0, val := 0 } :=
  ⟨rfl, rfl, Nat.zero_le _, nofun, rfl, consumed_concat h.consumed (reading_hextet h hne), by
    simpa using Nat.not_lt.mp hroom⟩

/-- Whatever the loop reads to the end and can store is made of groups. -/
theorem loop_sound (h : Reading pre part src st)
    (hend : src = [] → part = [] → st.colonp = some st.tp.length)
    (hl : Parsing.loop src st = some fin) {closed : Parsing} (hc : fin.close = some closed) :
    Stored (pre ++ part ++ src) closed.tp closed.colonp ∧ closed.tp.length ≤ 16 := by
  induction src generalizing pre part st with
  | nil =>
    obtain rfl : st = fin := Option.some.inj hl
    simp only [Parsing.close, h.seen] at hc
    rw [List.append_nil]
    by_cases hp : part = []
    · subst hp
      obtain rfl : st = closed := by simpa using hc
      rw [List.append_nil]
      exact ⟨Or.inr ⟨hend rfl rfl, h.consumed⟩, h.room⟩
    · rw [if_pos (List.length_pos_iff.mpr hp)] at hc
      split at hc
      · cases hc
      · next hroom =>
        obtain rfl := Option.some.inj hc
        exact ⟨Or.inl ⟨pre, part, st.tp, _, rfl, Or.inl (reading_hextet h hp), rfl, h.consumed⟩,
          by simpa using Nat.not_lt.mp hroom⟩
  | cons ch src ih =>
    rw [Parsing.loop] at hl
    cases hd : digit? 16 ch with
    | some digit =>
      simp only [hd] at hl
      split at hl
      · cases hl
      · next hfour =>
        split at hl
        · cases hl
        · have := ih (reading_digit h hd hfour) (by simp) hl
          simpa using this
    | none =>
      simp only [hd] at hl
      have hseen := h.seen
      split at hl
      · next hcolon =>
        subst hcolon
        split at hl
        · next hz =>
          obtain rfl : part = [] := List.length_eq_zero_iff.mp (by omega)
          split at hl
          · cases hl
          · next hnone =>
            have hn : st.colonp = none := by simpa using hnone
            have := ih (reading_double h hn) (fun _ _ => rfl) hl
            simpa using this
        · next hz =>
          have hne : part ≠ [] := by
            rintro rfl
            exact hz hseen
          split at hl
          · cases hl
          · next hsrc =>
            split at hl
            · cases hl
            · next hroom =>
              have := ih (reading_colon h hne hroom) (fun hnil => absurd hnil hsrc) hl
              simpa using this
      · split at hl
        · next hdot =>
          split at hl
          · next quad hquad =>
            obtain ⟨hlen, hcur⟩ := inetPton4_eq_some_iff.mp hquad
            obtain rfl := Option.some.inj hl
            obtain rfl : _ = closed := Option.some.inj hc
            refine ⟨Or.inl ⟨pre, part ++ ch :: src, st.tp, quad, by simp, Or.inr ⟨hlen, ?_⟩, rfl,
              h.consumed⟩, ?_⟩
            · rw [← hcur, h.curtok]
            · rw [List.length_append, hlen]
              exact hdot.2
          · cases hl
        · cases hl

/-- Begins with something other than a colon. -/
def Headed (text : List Char) : Prop := ∃ c rest, text = c :: rest ∧ c ≠ ':'

theorem headed_append (h : Headed text) (rest : List Char) : Headed (text ++ rest) := by
  obtain ⟨c, cs, rfl, hc⟩ := h
  exact ⟨c, cs ++ rest, rfl, hc⟩

theorem headed_of_digits (hne : text ≠ []) (h : ∀ c ∈ text, (digit? 16 c).isSome) :
    Headed text := by
  obtain ⟨c, rest, rfl⟩ := List.exists_cons_of_ne_nil hne
  refine ⟨c, rest, rfl, ?_⟩
  rintro rfl
  exact absurd (h ':' List.mem_cons_self) (by decide)

theorem digit?_of_mem_octet {n : ℕ} (h : c ∈ Nat.toDigits 10 n) : (digit? 16 c).isSome := by
  obtain ⟨d, hd⟩ := Option.isSome_iff_exists.mp (isSome_of_mem_toDigits (by decide) (by decide) h)
  have hlt := digit?_lt hd
  rw [digitChar_of_digit?_ten hd, digit?_digitChar (by decide) (by omega)]
  rfl

theorem headed_hextet (h : Hextet text bytes) : Headed text :=
  headed_of_digits h.nonempty h.digits

theorem headed_ends (h : Ends text bytes) : Headed text := by
  rcases h with h | ⟨hlen, rfl⟩
  · exact headed_hextet h
  · obtain ⟨a, b, c, d, rfl⟩ := List.length_eq_four.mp hlen
    have := headed_of_digits (List.length_pos_iff.mp (Nat.length_toDigits_pos (b := 10)))
      (fun c (hc : c ∈ Nat.toDigits 10 a.toNat) => digit?_of_mem_octet hc)
    simpa [inetNtop4] using headed_append this _

theorem headed_groups (hl : ∀ {text bytes}, last text bytes → Headed text)
    (h : Groups last text bytes) : Headed text := by
  cases h with
  | one h => exact hl h
  | more h _ => exact headed_append (headed_hextet h) _

theorem opening_headed (h : Headed text) : Parsing.opening text = some text := by
  obtain ⟨c, rest, rfl, hc⟩ := h
  simp [Parsing.opening, hc]

theorem opening_cases {whole : List Char} (h : Parsing.opening whole = some text) :
    (whole = text ∧ Headed text) ∨ (whole = ':' :: text ∧ text.head? = some ':') := by
  unfold Parsing.opening at h
  split at h
  · cases h
  · rw [Option.ite_none_right_eq_some] at h
    obtain ⟨hhead, h⟩ := h
    obtain rfl := Option.some.inj h
    exact Or.inr ⟨rfl, hhead⟩
  · next hne hcolon =>
    obtain rfl := Option.some.inj h
    obtain ⟨c, rest, rfl⟩ := List.exists_cons_of_ne_nil hne
    exact Or.inl ⟨rfl, c, rest, rfl, fun hc => hcolon rest (by rw [hc])⟩

/-- The double colon in the text that the loop gets is one in the whole text. -/
theorem half_of_opening {whole : List Char} (ho : Parsing.opening whole = some text)
    (h : Colons pre bytes) (ht : text = pre ++ ':' :: rest) :
    ∃ left, Half Hextet left bytes ∧ whole = left ++ ':' :: ':' :: rest := by
  subst ht
  rcases half_of_colons h with ⟨rfl, rfl⟩ | ⟨left, rfl, hg⟩
  · refine ⟨[], Or.inl ⟨rfl, rfl⟩, ?_⟩
    rcases opening_cases ho with ⟨-, c, _, htext, hc⟩ | ⟨rfl, -⟩
    · exact absurd (List.cons.inj htext).1.symm hc
    · rfl
  · refine ⟨left, Or.inr hg, ?_⟩
    obtain ⟨c, cs, rfl, hc⟩ := headed_groups headed_hextet hg
    rcases opening_cases ho with ⟨rfl, -⟩ | ⟨-, hhead⟩
    · simp
    · exact absurd (by simpa using hhead) hc

theorem colons_nil (h : Colons text []) : text = [] := by
  generalize hb : ([] : Bytes) = bytes at h
  cases h with
  | nil => rfl
  | cons h _ =>
    rw [h.stored] at hb
    cases hb

theorem denotes_of_halves {left right : List Char} {tp : Bytes} {colonp : ℕ}
    (hl : Half Hextet left (tp.take colonp)) (hr : Half Ends right (tp.drop colonp))
    (hlt : tp.length < 16) : Denotes6 (left ++ ':' :: ':' :: right)
      (tp.take colonp ++ List.replicate (16 - tp.length) 0 ++ tp.drop colonp) := by
  have hlen : (tp.take colonp).length + (tp.drop colonp).length = tp.length := by
    rw [← List.length_append, List.take_append_drop]
  have := Denotes6.compressed hl hr (by omega)
  rwa [hlen] at this

/-- What the loop has stored is what the text denotes. -/
theorem denotes_of_stored {whole : List Char} (ho : Parsing.opening whole = some text)
    (h : Stored text st.tp st.colonp) (hle : st.tp.length ≤ 16) (he : st.expand = some bytes) :
    Denotes6 whole bytes := by
  obtain ⟨tp, colonp, curtok, xdigitsSeen, val⟩ := st
  dsimp only at h hle
  rcases h with ⟨pre, rest, high, low, rfl, hends, rfl, hc⟩ | ⟨rfl, left, right, rfl, -, hl, hr⟩
  · cases colonp with
    | none =>
      simp only [Parsing.expand, Option.ite_none_right_eq_some, Option.some.injEq] at he
      obtain ⟨hlen, rfl⟩ := he
      have hg := groups_of_colons hc hends
      rcases opening_cases ho with ⟨rfl, -⟩ | ⟨-, hhead⟩
      · exact .full hg hlen
      · obtain ⟨c, _, htext, hc⟩ := headed_groups headed_ends hg
        rw [htext] at hhead
        exact absurd (Option.some.inj hhead) hc
    | some colonp =>
      obtain ⟨left, right, rfl, hcolonp, hl, hr⟩ := hc
      have htext : left ++ ':' :: right ++ rest = left ++ ':' :: (right ++ rest) := by simp
      obtain ⟨left, hhalf, rfl⟩ := half_of_opening ho hl htext
      simp only [Parsing.expand, Option.ite_none_left_eq_some, Option.some.injEq] at he
      obtain ⟨hlen, rfl⟩ := he
      refine denotes_of_halves ?_ (Or.inr ?_) (by omega)
      · rwa [List.take_append_of_le_length hcolonp]
      · rw [List.drop_append_of_le_length hcolonp]
        exact groups_of_colons hr hends
  · -- The text ends with the double colon.
    rw [List.drop_length] at hr
    obtain rfl := colons_nil hr
    obtain ⟨left, hhalf, rfl⟩ := half_of_opening ho hl rfl
    simp only [Parsing.expand, Option.ite_none_left_eq_some, Option.some.injEq] at he
    obtain ⟨hlen, rfl⟩ := he
    refine denotes_of_halves hhalf (Or.inl ⟨rfl, ?_⟩) (by omega)
    rw [List.drop_length]

theorem denotes_of_inetPton6 (h : inetPton6 src = some bytes) : Denotes6 src bytes := by
  obtain ⟨text, ho, h⟩ := Option.bind_eq_some_iff.mp h
  obtain ⟨fin, hl, h⟩ := Option.bind_eq_some_iff.mp h
  obtain ⟨closed, hc, h⟩ := Option.bind_eq_some_iff.mp h
  have hne : text ≠ [] := by
    rcases opening_cases ho with ⟨-, c, rest, rfl, -⟩ | ⟨-, hhead⟩
    · exact List.cons_ne_nil _ _
    · rintro rfl
      cases hhead
  have hread : Reading [] [] text ⟨[], none, text, 0, 0⟩ :=
    ⟨rfl, rfl, Nat.zero_le _, nofun, rfl, .nil, Nat.zero_le _⟩
  obtain ⟨hs, hle⟩ := loop_sound hread (fun hnil => absurd hnil hne) hl hc
  exact denotes_of_stored ho hs hle h

/-- At most four digits are read as one group. -/
theorem loop_digits {tp : Bytes} {colonp : Option ℕ} {curtok : List Char}
    (hd : ∀ c ∈ text, (digit? 16 c).isSome) (hlen : text.length ≤ 4) (rest : List Char) :
    Parsing.loop (text ++ rest) ⟨tp, colonp, curtok, 0, 0⟩ =
      Parsing.loop rest ⟨tp, colonp, curtok, text.length, value 16 text⟩ := by
  induction text using List.reverseRecOn generalizing rest with
  | nil => rfl
  | append_singleton text c ih =>
    rw [List.length_append, List.length_singleton] at hlen
    obtain ⟨d, hc⟩ := Option.isSome_iff_exists.mp (hd c (by simp))
    have hlt : value 16 text * 16 + d < 16 ^ (text.length + 1) := by
      have := value_lt (show 0 < 16 by decide) (text ++ [c])
      simpa [value_concat, hc] using this
    have hle : 16 ^ (text.length + 1) ≤ 16 ^ 4 := Nat.pow_le_pow_right (by decide) hlen
    have hval : ¬ value 16 text * 16 + d > 0xffff := by omega
    have hseen : text.length ≠ 4 := by omega
    rw [List.append_assoc, List.singleton_append,
      ih (fun c hmem => hd c (List.mem_append_left _ hmem)) (by omega), value_concat, hc,
      Parsing.loop]
    simp [hc, hval, hseen]

theorem loop_hextet {tp : Bytes} {colonp : Option ℕ} {curtok : List Char}
    (h : Hextet text bytes) (hroom : tp.length + 2 ≤ 16) (hne : rest ≠ []) :
    Parsing.loop (text ++ ':' :: rest) ⟨tp, colonp, curtok, 0, 0⟩ =
      Parsing.loop rest ⟨tp ++ bytes, colonp, rest, 0, 0⟩ := by
  have hd : digit? 16 ':' = none := by decide
  have hseen : text.length ≠ 0 := fun hz => h.nonempty (List.length_eq_zero_iff.mp hz)
  rw [loop_digits h.digits h.short, Parsing.loop, h.stored]
  simp [hd, hseen, hne]
  omega

theorem loop_colons {tp : Bytes} {colonp : Option ℕ} (h : Colons text bytes)
    (hroom : tp.length + bytes.length ≤ 16) (hne : rest ≠ []) :
    Parsing.loop (text ++ rest) ⟨tp, colonp, text ++ rest, 0, 0⟩ =
      Parsing.loop rest ⟨tp ++ bytes, colonp, rest, 0, 0⟩ := by
  induction h generalizing tp with
  | nil => simp
  | @cons text others bytes tail h _ ih =>
    have hlen : bytes.length = 2 := by
      rw [h.stored]
      rfl
    rw [List.length_append] at hroom
    have hrest : others ++ rest ≠ [] := by simp [hne]
    rw [List.append_assoc, List.cons_append, loop_hextet h (by omega) hrest,
      ih (by rw [List.length_append]; omega), List.append_assoc]

theorem loop_double {tp : Bytes} {curtok : List Char} :
    Parsing.loop (':' :: rest) ⟨tp, none, curtok, 0, 0⟩ =
      Parsing.loop rest ⟨tp, some tp.length, rest, 0, 0⟩ := by
  have hd : digit? 16 ':' = none := by decide
  rw [Parsing.loop]
  simp [hd]

/-- Reading to the end and storing the last group. -/
def Finishes (src : List Char) (st : Parsing) (tp : Bytes) (colonp : Option ℕ) : Prop :=
  ∃ fin closed, Parsing.loop src st = some fin ∧ fin.close = some closed ∧ closed.tp = tp ∧
    closed.colonp = colonp

theorem finishes_ends {tp : Bytes} {colonp : Option ℕ} (h : Ends text bytes)
    (hroom : tp.length + bytes.length ≤ 16) :
    Finishes text ⟨tp, colonp, text, 0, 0⟩ (tp ++ bytes) colonp := by
  rcases h with h | ⟨hlen, rfl⟩
  · have hloop : Parsing.loop (text ++ []) ⟨tp, colonp, text, 0, 0⟩ = _ :=
      loop_digits h.digits h.short []
    rw [List.append_nil] at hloop
    have hpos := List.length_pos_iff.mpr h.nonempty
    have hstored := h.stored
    subst hstored
    rw [length_word] at hroom
    refine ⟨_, ⟨_, colonp, text, text.length, value 16 text⟩, hloop, ?_, rfl, rfl⟩
    simp [Parsing.close, hpos]
    omega
  · obtain ⟨a, b, c, d, rfl⟩ := List.length_eq_four.mp hlen
    have ha : (Nat.toDigits 10 a.toNat).length ≤ 3 := by
      rw [Nat.length_toDigits_le_iff (by decide) (by decide)]
      have := a.toNat_lt
      omega
    have hd : digit? 16 '.' = none := by decide
    have hquad := inetPton4_inetNtop4 hlen
    have hfour : tp.length + 4 ≤ 16 := hroom
    refine ⟨⟨tp ++ [a, b, c, d], colonp, inetNtop4 [a, b, c, d], 0,
      value 16 (Nat.toDigits 10 a.toNat)⟩, _, ?_, rfl, rfl, rfl⟩
    -- The loop reads the first octet as a group until it finds the dot.
    rw [inetNtop4] at hquad ⊢
    simp only [List.append_assoc, List.cons_append] at hquad ⊢
    rw [loop_digits (fun c hmem => digit?_of_mem_octet hmem) (by omega), Parsing.loop]
    simp [hd, hquad, hfour]

theorem finishes_half {tp : Bytes} {colonp : Option ℕ} (h : Half Ends text bytes)
    (hroom : tp.length + bytes.length ≤ 16) :
    Finishes text ⟨tp, colonp, text, 0, 0⟩ (tp ++ bytes) colonp := by
  rcases h with ⟨rfl, rfl⟩ | h
  · refine ⟨_, _, rfl, rfl, ?_, rfl⟩
    simp
  · obtain ⟨pre, rest, high, low, hc, hl, rfl, rfl⟩ := colons_of_groups h
    rw [List.length_append] at hroom
    obtain ⟨c, cs, hrest, -⟩ := headed_ends hl
    have hne : rest ≠ [] := by simp [hrest]
    have hfin : Finishes rest ⟨tp ++ high, colonp, rest, 0, 0⟩ (tp ++ high ++ low) colonp :=
      finishes_ends hl (by rw [List.length_append]; omega)
    obtain ⟨fin, closed, hloop, hclose, htp, hcolonp⟩ := hfin
    rw [← loop_colons hc (by omega) hne] at hloop
    exact ⟨fin, closed, hloop, hclose, by rw [htp, List.append_assoc], hcolonp⟩

theorem colons_of_half (h : Groups Hextet text bytes) : Colons (text ++ [':']) bytes := by
  induction h with
  | one h => simpa using Colons.cons h .nil
  | more h _ ih => simpa using Colons.cons h ih

/-- With the bytes of both sides stored, the double colon takes the rest. -/
theorem inetPton6_of_finishes {whole : List Char} {high low : Bytes}
    (ho : Parsing.opening whole = some text)
    (hf : Finishes text ⟨[], none, text, 0, 0⟩ (high ++ low) (some high.length))
    (hlt : high.length + low.length < 16) : inetPton6 whole =
      some (high ++ List.replicate (16 - (high.length + low.length)) 0 ++ low) := by
  obtain ⟨fin, closed, hloop, hclose, htp, hcolonp⟩ := hf
  simp only [inetPton6, ho, hloop, hclose, Parsing.expand, hcolonp, htp, Option.bind_eq_bind,
    Option.bind_some, List.length_append, List.take_left, List.drop_left]
  rw [if_neg (by omega)]

theorem inetPton6_of_denotes (h : Denotes6 src bytes) : inetPton6 src = some bytes := by
  cases h with
  | full h hlen =>
    have hfin : Finishes src ⟨[], none, src, 0, 0⟩ ([] ++ bytes) none :=
      finishes_half (Or.inr h) (by simp [hlen])
    obtain ⟨fin, closed, hloop, hclose, htp, hcolonp⟩ := hfin
    simp [inetPton6, opening_headed (headed_groups headed_ends h), hloop, hclose, Parsing.expand,
      hcolonp, htp, hlen]
  | @compressed left right high low hh hl hs =>
    have hfin : Finishes right ⟨high, some high.length, right, 0, 0⟩ (high ++ low)
        (some high.length) := finishes_half hl (by omega)
    obtain ⟨fin, closed, hloop, hrest⟩ := hfin
    rcases hh with ⟨rfl, rfl⟩ | hh
    · have hdouble : Parsing.loop (':' :: right) ⟨[], none, ':' :: right, 0, 0⟩ = some fin := by
        rw [loop_double]
        exact hloop
      have ho : Parsing.opening (':' :: ':' :: right) = some (':' :: right) := rfl
      exact inetPton6_of_finishes ho ⟨fin, closed, hdouble, hrest⟩ hs
    · have hroom : ([] : Bytes).length + high.length ≤ 16 := by
        simp
        omega
      have hcolons : Parsing.loop (left ++ [':'] ++ ':' :: right) ⟨[], none, _, 0, 0⟩ = _ :=
        loop_colons (colons_of_half hh) hroom (List.cons_ne_nil _ _)
      rw [List.nil_append, loop_double, hloop, List.append_assoc, List.singleton_append]
        at hcolons
      have ho := opening_headed
        (headed_append (headed_groups headed_hextet hh) (':' :: ':' :: right))
      exact inetPton6_of_finishes ho ⟨fin, closed, hcolons, hrest⟩ hs

/-- `inet_pton` takes exactly the texts of IPv6 addresses. -/
theorem inetPton6_eq_some_iff : inetPton6 src = some bytes ↔ Denotes6 src bytes :=
  ⟨denotes_of_inetPton6, inetPton6_of_denotes⟩

end Wetnork.Inet
