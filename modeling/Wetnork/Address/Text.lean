import Mathlib.Data.List.TakeWhile
import Wetnork.Address.Hextets
import Wetnork.Address.IPAddress

/-! Addresses as texts: `inet_ntop` for `AF_INET6`, and the two conversions of `IPAddress`. -/
namespace Wetnork.Inet

open Numerals

/-- A run of groups of zeros. -/
structure Run where
  base : ℕ
  len : ℕ
deriving DecidableEq, Repr

/-- The longest run so far and the one that is being read. -/
structure Scan where
  best : Option Run
  cur : Option Run
deriving DecidableEq, Repr

namespace Scan

/-- The end of the current run. -/
def settle (s : Scan) : Scan :=
  match s.cur with
  | none => s
  | some cur =>
    match s.best with
    | none => ⟨some cur, none⟩
    | some best => if cur.len > best.len then ⟨some cur, none⟩ else ⟨some best, none⟩

def step (s : Scan) (i word : ℕ) : Scan :=
  if word = 0 then
    match s.cur with
    | none => { s with cur := some ⟨i, 1⟩ }
    | some cur => { s with cur := some { cur with len := cur.len + 1 } }
  else s.settle

def run : ℕ → Scan → List ℕ → Scan
  | _, s, [] => s.settle
  | i, s, word :: words => run (i + 1) (s.step i word) words

end Scan

/-- What is printed as a double colon: the longest run of two groups or more. -/
def bestRun (words : List ℕ) : Option Run :=
  (Scan.run 0 ⟨none, none⟩ words).best.filter (2 ≤ ·.len)

/-- The groups of an address. -/
def wordsOf : Bytes → List ℕ
  | high :: low :: rest => (high.toNat * 256 + low.toNat) :: wordsOf rest
  | _ => []

namespace Run

def inside (best : Option Run) (i : ℕ) : Bool :=
  best.any fun run => run.base ≤ i ∧ i < run.base + run.len

/-- Addresses with an IPv4 address at the end, compatible or mapped. -/
def encapsulates (words : List ℕ) (best : Option Run) : Bool :=
  best.any fun run => run.base = 0 ∧ (run.len = 6 ∨ (run.len = 5 ∧ words[5]? = some 0xffff))

/-- The loop that prints the groups from number `i` on. -/
def print (quad : List Char) (words : List ℕ) (best : Option Run) : ℕ → List ℕ → List Char
  | _, [] => []
  | i, word :: rest =>
    if inside best i then
      (if best.any (i = ·.base) then [':'] else []) ++ print quad words best (i + 1) rest
    else
      (if i ≠ 0 then [':'] else []) ++
        if i = 6 ∧ encapsulates words best then quad
        else Nat.toDigits 16 word ++ print quad words best (i + 1) rest

end Run

/-- `inet_ntop(AF_INET6, …)`. -/
def inetNtop6 (bytes : Bytes) : List Char :=
  let words := wordsOf bytes
  let best := bestRun words
  Run.print (inetNtop4 (bytes.drop 12)) words best 0 words ++
    if best.any (fun run => run.base + run.len = 8) then [':'] else []

example : String.ofList (inetNtop6 ([0x20, 1, 0xd, 0xb8] ++ List.replicate 11 0 ++ [1])) =
    "2001:db8::1" := by decide

example : String.ofList (inetNtop6 (List.replicate 12 0 ++ [1, 2, 3, 4])) = "::1.2.3.4" := by
  decide

example : String.ofList (inetNtop6 (List.replicate 16 0)) = "::" := by decide

/-- Where a run of zeros is. -/
def Zeros (words : List ℕ) (run : Run) : Prop :=
  ∃ pre post, words = pre ++ List.replicate run.len 0 ++ post ∧ pre.length = run.base

/-- What the loop over the groups keeps. -/
structure Scan.Sound (seen : List ℕ) (s : Scan) : Prop where
  best : ∀ run, s.best = some run → Zeros seen run
  cur : ∀ run, s.cur = some run →
    ∃ pre, seen = pre ++ List.replicate run.len 0 ∧ pre.length = run.base

variable {words seen : List ℕ} {run : Run} {s : Scan} {bytes : Bytes}

theorem zeros_concat (h : Zeros words run) (word : ℕ) : Zeros (words ++ [word]) run := by
  obtain ⟨pre, post, rfl, hlen⟩ := h
  exact ⟨pre, post ++ [word], by simp, hlen⟩

theorem sound_settle (h : s.Sound seen) : s.settle.Sound seen := by
  unfold Scan.settle
  cases hc : s.cur with
  | none => exact h
  | some cur =>
    obtain ⟨pre, hseen, hlen⟩ := h.cur cur hc
    have hcur : ∀ run, some cur = some run → Zeros seen run := fun run hr => by
      obtain rfl := Option.some.inj hr
      exact ⟨pre, [], by simpa using hseen, hlen⟩
    cases hb : s.best with
    | none => exact ⟨hcur, nofun⟩
    | some best =>
      dsimp only
      split
      · exact ⟨hcur, nofun⟩
      · exact ⟨fun run hr => h.best run (hb.trans hr), nofun⟩

theorem sound_step (h : s.Sound seen) (word : ℕ) :
    (s.step seen.length word).Sound (seen ++ [word]) := by
  unfold Scan.step
  split
  · next hz =>
    subst hz
    cases hc : s.cur with
    | none =>
      refine ⟨fun run hr => zeros_concat (h.best run hr) 0, fun run hr => ?_⟩
      obtain rfl := Option.some.inj hr
      exact ⟨seen, rfl, rfl⟩
    | some cur =>
      obtain ⟨pre, hseen, hlen⟩ := h.cur cur hc
      refine ⟨fun run hr => zeros_concat (h.best run hr) 0, fun run hr => ?_⟩
      obtain rfl := Option.some.inj hr
      refine ⟨pre, ?_, hlen⟩
      rw [hseen, List.append_assoc, List.replicate_succ']
  · have hs := sound_settle h
    have hnone : s.settle.cur = none := by
      unfold Scan.settle
      cases hc : s.cur with
      | none => exact hc
      | some cur =>
        cases s.best with
        | none => rfl
        | some best =>
          dsimp only
          split <;> rfl
    exact ⟨fun run hr => zeros_concat (hs.best run hr) word, by simp [hnone]⟩

theorem sound_run (h : s.Sound seen) (words : List ℕ) :
    (Scan.run seen.length s words).Sound (seen ++ words) := by
  induction words generalizing seen s with
  | nil => simpa [Scan.run] using sound_settle h
  | cons word words ih => simpa [Scan.run] using ih (sound_step h word)

theorem zeros_of_bestRun (h : bestRun words = some run) : Zeros words run ∧ 2 ≤ run.len := by
  obtain ⟨hbest, hlen⟩ := Option.filter_eq_some_iff.mp h
  have hempty : Scan.Sound [] ⟨none, none⟩ := ⟨nofun, nofun⟩
  have hs := sound_run hempty words
  exact ⟨hs.best run hbest, by simpa using hlen⟩

theorem word_of_bytes (high low : UInt8) : word (high.toNat * 256 + low.toNat) = [high, low] := by
  have hlow := low.toNat_lt
  rw [word, show (high.toNat * 256 + low.toNat) / 256 = high.toNat by omega, UInt8.ofNat_toNat]
  have : UInt8.ofNat (high.toNat * 256 + low.toNat) = low := by
    apply UInt8.toNat_inj.mp
    rw [UInt8.toNat_ofNat']
    omega
  rw [this]

theorem words_spec {n : ℕ} (h : bytes.length = 2 * n) :
    (wordsOf bytes).length = n ∧ (wordsOf bytes).flatMap word = bytes ∧
      ∀ w ∈ wordsOf bytes, w < 65536 := by
  induction n generalizing bytes with
  | zero =>
    obtain rfl := List.length_eq_zero_iff.mp h
    exact ⟨rfl, rfl, nofun⟩
  | succ n ih =>
    match bytes, h with
    | high :: low :: rest, h =>
      obtain ⟨hlen, hwords, hlt⟩ := ih (show rest.length = 2 * n by simp at h; omega)
      refine ⟨by rw [wordsOf, List.length_cons, hlen], ?_, ?_⟩
      · rw [wordsOf, List.flatMap_cons, word_of_bytes, hwords]
        rfl
      · intro w hmem
        rcases List.mem_cons.mp hmem with rfl | hmem
        · have := high.toNat_lt
          have := low.toNat_lt
          omega
        · exact hlt w hmem

theorem hextet_toDigits {w : ℕ} (h : w < 65536) : Hextet (Nat.toDigits 16 w) (word w) := by
  refine ⟨?_, ?_, fun c hc => isSome_of_mem_toDigits (by decide) (by decide) hc, ?_⟩
  · exact List.length_pos_iff.mp Nat.length_toDigits_pos
  · rwa [Nat.length_toDigits_le_iff (by decide) (by decide)]
  · rw [value_toDigits (by decide) (by decide)]

/-- Groups with a colon in front of each. -/
def tailGroups (words : List ℕ) : List Char := words.flatMap fun w => ':' :: Nat.toDigits 16 w

theorem groups_tail {w : ℕ} {last : List Char → Bytes → Prop}
    (hlast : ∀ {text bytes}, Hextet text bytes → last text bytes)
    (h : ∀ v ∈ w :: words, v < 65536) :
    Groups last (Nat.toDigits 16 w ++ tailGroups words) ((w :: words).flatMap word) := by
  induction words generalizing w with
  | nil =>
    have := hextet_toDigits (h w List.mem_cons_self)
    simpa [tailGroups] using Groups.one (hlast this)
  | cons v words ih =>
    have hw := hextet_toDigits (h w List.mem_cons_self)
    have := Groups.more hw (ih fun u hu => h u (List.mem_cons_of_mem w hu))
    simpa [tailGroups] using this

namespace Run

variable {quad : List Char} {best : Option Run} {i : ℕ} {rest : List ℕ}

theorem print_outside (hi : 0 < i)
    (ho : ∀ j, i ≤ j → j < i + seen.length →
      ¬ inside best j ∧ ¬ (j = 6 ∧ encapsulates words best)) :
    print quad words best i (seen ++ rest) =
      tailGroups seen ++ print quad words best (i + seen.length) rest := by
  induction seen generalizing i with
  | nil => simp [tailGroups]
  | cons w seen ih =>
    obtain ⟨hin, hquad⟩ := ho i le_rfl (by simp)
    have hrest := ih (Nat.succ_pos i) fun j hj hlt =>
      ho j (by omega) (by rw [List.length_cons]; omega)
    have hz : i ≠ 0 := by omega
    rw [List.cons_append, print, if_neg hin, if_pos hz, if_neg hquad, hrest]
    simp [tailGroups, Nat.add_assoc, Nat.add_comm 1]

theorem print_inside {n : ℕ} (hi : run.base < i) (hn : i + n ≤ run.base + run.len) :
    print quad words (some run) i (List.replicate n 0 ++ rest) =
      print quad words (some run) (i + n) rest := by
  induction n generalizing i with
  | zero => rfl
  | succ n ih =>
    have hin : inside (some run) i := by
      simp [inside]
      omega
    have hne : ¬ i = run.base := by omega
    rw [List.replicate_succ, List.cons_append, print, if_pos hin, ih (by omega) (by omega)]
    simp [hne, Nat.add_assoc, Nat.add_comm 1]

/-- The run itself is printed as one colon. -/
theorem print_run (hpos : 0 < run.len) :
    print quad words (some run) run.base (List.replicate run.len 0 ++ rest) =
      ':' :: print quad words (some run) (run.base + run.len) rest := by
  obtain ⟨n, hn⟩ := Nat.exists_eq_add_of_lt hpos
  rw [Nat.zero_add] at hn
  have hin : inside (some run) run.base := by
    simp [inside]
    omega
  rw [hn, List.replicate_succ, List.cons_append, print, if_pos hin,
    print_inside (Nat.lt_succ_self _) (by omega)]
  simp [Nat.add_assoc, Nat.add_comm 1]

/-- The groups in front of the run, with the first of the two colons. -/
theorem print_front (quad : List Char) (words post : List ℕ) {pre : List ℕ}
    (hbase : pre.length = run.base) (hpos : 0 < run.len) (hlt : ∀ w ∈ pre, w < 65536) :
    ∃ left, Half Hextet left (pre.flatMap word) ∧
      print quad words (some run) 0 (pre ++ List.replicate run.len 0 ++ post) =
        left ++ ':' :: print quad words (some run) (run.base + run.len) post := by
  cases pre with
  | nil =>
    have hz : run.base = 0 := hbase.symm
    have hrun : print quad words (some run) 0 (List.replicate run.len 0 ++ post) = _ :=
      hz ▸ print_run hpos
    exact ⟨[], Or.inl ⟨rfl, rfl⟩, by simpa [hz] using hrun⟩
  | cons w pre =>
    rw [List.length_cons] at hbase
    have henc : ¬ encapsulates words (some run) := by
      simp [encapsulates]
      omega
    have hin : ¬ inside (some run) 0 := by
      simp [inside]
      omega
    have hfront : print quad words (some run) 1 (pre ++ (List.replicate run.len 0 ++ post)) = _ :=
      print_outside Nat.one_pos fun j _ hj => ⟨by simp [inside]; omega, fun h => henc h.2⟩
    refine ⟨_, Or.inr (groups_tail id hlt), ?_⟩
    rw [Nat.add_comm, hbase, print_run hpos] at hfront
    simp [print, hin, henc, hfront]

/-- The groups after the run, with the second colon, when there is no IPv4 address in them. -/
theorem print_back {post : List ℕ} (hlen : run.base + run.len + post.length = 8)
    (hpos : 0 < run.len) (henc : ¬ encapsulates words (some run)) (hlt : ∀ w ∈ post, w < 65536) :
    ∃ right, Half Ends right (post.flatMap word) ∧
      print quad words (some run) (run.base + run.len) post ++
        (if run.base + run.len = 8 then [':'] else []) = ':' :: right := by
  have hback : print quad words (some run) (run.base + run.len) (post ++ []) = _ :=
    print_outside (by omega) fun j hj _ => ⟨by simp [inside]; omega, fun h => henc h.2⟩
  rw [List.append_nil] at hback
  rw [hback]
  cases post with
  | nil =>
    have hend : run.base + run.len = 8 := hlen
    exact ⟨[], Or.inl ⟨rfl, rfl⟩, by simp [tailGroups, print, hend]⟩
  | cons w post =>
    have hne : run.base + run.len ≠ 8 := by
      rw [List.length_cons] at hlen
      omega
    refine ⟨_, Or.inr (groups_tail Or.inl hlt), ?_⟩
    simp [tailGroups, print, hne]

/-- The same when an IPv4 address is printed at the end. -/
theorem print_back_quad {post : List ℕ} {low : Bytes}
    (hlen : run.base + run.len + post.length = 8) (henc : encapsulates words (some run))
    (hwords : words = List.replicate run.len 0 ++ post) (hfour : low.length = 4)
    (hlow : (words.drop 6).flatMap word = low) :
    ∃ right, Half Ends right (post.flatMap word) ∧
      print (inetNtop4 low) words (some run) (run.base + run.len) post ++
        (if run.base + run.len = 8 then [':'] else []) = ':' :: right := by
  have hquad : Groups Ends (inetNtop4 low) low := .one (Or.inr ⟨hfour, rfl⟩)
  have h := henc
  simp only [encapsulates, Option.any_some, decide_eq_true_eq] at h
  obtain ⟨hbase, hrun | ⟨hrun, hffff⟩⟩ := h
  · rw [hbase, hrun] at hlen ⊢
    obtain ⟨v, w, rfl⟩ := List.length_eq_two.mp (show post.length = 2 by omega)
    rw [hwords, hrun] at hlow
    refine ⟨inetNtop4 low, Or.inr ?_, ?_⟩
    · subst hlow
      exact hquad
    · simp [print, inside, hbase, hrun, henc]
  · rw [hbase, hrun] at hlen ⊢
    obtain ⟨u, v, w, rfl⟩ := List.length_eq_three.mp (show post.length = 3 by omega)
    rw [hwords, hrun] at hlow hffff
    obtain rfl : u = 65535 := by simpa using hffff
    have hmore := Groups.more (hextet_toDigits (show 65535 < 65536 by decide)) hquad
    refine ⟨Nat.toDigits 16 65535 ++ ':' :: inetNtop4 low, Or.inr ?_, ?_⟩
    · subst hlow
      exact hmore
    · simp [print, inside, hbase, hrun, henc]

end Run

theorem flatMap_word_drop (words : List ℕ) (n : ℕ) :
    (words.drop n).flatMap word = (words.flatMap word).drop (2 * n) := by
  induction n generalizing words with
  | zero => rfl
  | succ n ih =>
    cases words with
    | nil => simp
    | cons w words => simpa [word, Nat.mul_succ] using ih words

theorem flatMap_word_replicate (n : ℕ) :
    (List.replicate n 0).flatMap word = List.replicate (2 * n) 0 := by
  induction n with
  | zero => rfl
  | succ n ih =>
    rw [List.replicate_succ, List.flatMap_cons, ih, Nat.mul_succ, Nat.add_comm,
      List.replicate_add]
    rfl

/-- What `inet_ntop` prints denotes the address that it prints. -/
theorem denotes_inetNtop6 (h : bytes.length = 16) : Denotes6 (inetNtop6 bytes) bytes := by
  obtain ⟨hlen, hwords, hlt⟩ := words_spec (n := 8) h
  have hlow : ((wordsOf bytes).drop 6).flatMap word = bytes.drop 12 := by
    rw [flatMap_word_drop, hwords]
  simp only [inetNtop6]
  cases hb : bestRun (wordsOf bytes) with
  | none =>
    have hpos : 0 < (wordsOf bytes).length := by omega
    obtain ⟨w, rest, hw⟩ := List.exists_cons_of_length_pos hpos
    have hfull : Groups Ends _ _ := groups_tail Or.inl (hw ▸ hlt)
    have hrest : Run.print (inetNtop4 (bytes.drop 12)) (w :: rest) none 1 (rest ++ []) = _ :=
      Run.print_outside Nat.one_pos (by simp [Run.inside, Run.encapsulates])
    rw [← hw, hwords] at hfull
    simp only [List.append_nil] at hrest
    simpa [Run.print, Run.inside, Run.encapsulates, hw, hrest] using Denotes6.full hfull h
  | some run =>
    obtain ⟨⟨pre, post, hsplit, hbase⟩, htwo⟩ := zeros_of_bestRun hb
    have hpos : 0 < run.len := by omega
    have htotal : run.base + run.len + post.length = 8 := by
      rw [hsplit] at hlen
      simp only [List.length_append, List.length_replicate, hbase] at hlen
      exact hlen
    rw [hsplit] at hlt
    obtain ⟨left, hleft, hfront⟩ := Run.print_front (inetNtop4 (bytes.drop 12)) (wordsOf bytes)
      post hbase hpos fun w hw => hlt w (List.mem_append_left _ (List.mem_append_left _ hw))
    have hback : ∃ right, Half Ends right (post.flatMap word) ∧
        Run.print (inetNtop4 (bytes.drop 12)) (wordsOf bytes) (some run) (run.base + run.len)
            post ++
          (if run.base + run.len = 8 then [':'] else []) = ':' :: right := by
      by_cases henc : Run.encapsulates (wordsOf bytes) (some run)
      · have hz : run.base = 0 := by
          simp [Run.encapsulates] at henc
          exact henc.1
        obtain rfl := List.length_eq_zero_iff.mp (hbase.trans hz)
        exact Run.print_back_quad htotal henc hsplit (by simp [h]) hlow
      · exact Run.print_back htotal hpos henc fun w hw => hlt w (List.mem_append_right _ hw)
    obtain ⟨right, hright, hback⟩ := hback
    have hbytes : bytes = pre.flatMap word ++ List.replicate (2 * run.len) 0 ++
        post.flatMap word := by
      rw [← flatMap_word_replicate, ← List.flatMap_append, ← List.flatMap_append, ← hsplit, hwords]
    have hcount : 2 * run.len =
        16 - ((pre.flatMap word).length + (post.flatMap word).length) := by
      rw [hbytes] at h
      simp only [List.length_append, List.length_replicate] at h
      omega
    have := Denotes6.compressed hleft hright (by omega)
    rw [← hcount, ← hbytes] at this
    rw [← hsplit] at hfront
    simp only [hfront, Option.any_some, decide_eq_true_eq, List.append_assoc, List.cons_append,
      hback]
    exact this

variable {text : List Char} {last : List Char → Bytes → Prop} {n : ℕ}

/-- What addresses are written with. -/
def Plain (c : Char) : Prop := (digit? 16 c).isSome ∨ c = ':' ∨ c = '.'

theorem plain_inetNtop4 (h : bytes.length = 4) {c : Char} (hc : c ∈ inetNtop4 bytes) :
    (digit? 16 c).isSome ∨ c = '.' := by
  obtain ⟨x, y, z, w, rfl⟩ := List.length_eq_four.mp h
  simp only [inetNtop4, List.mem_append, List.mem_cons] at hc
  rcases hc with ((hc | hc | hc) | hc | hc) | hc | hc
  all_goals first | exact Or.inr hc | exact Or.inl (digit?_of_mem_octet hc)

theorem length_inetNtop4 (h : bytes.length = 4) : (inetNtop4 bytes).length ≤ 15 := by
  obtain ⟨x, y, z, w, rfl⟩ := List.length_eq_four.mp h
  have hle : ∀ octet : UInt8, (Nat.toDigits 10 octet.toNat).length ≤ 3 := fun octet => by
    have := octet.toNat_lt
    rw [Nat.length_toDigits_le_iff (by decide) (by decide)]
    omega
  have := hle x
  have := hle y
  have := hle z
  have := hle w
  simp only [inetNtop4, List.length_append, List.length_cons]
  omega

/-- The characters of a text, and how many of them there are for each byte that they denote. -/
structure Measured (extra : ℕ) (text : List Char) (bytes : Bytes) : Prop where
  plain : ∀ c ∈ text, Plain c
  short : 2 * text.length ≤ 5 * bytes.length + extra

theorem measured_hextet (h : Hextet text bytes) : Measured 0 text bytes ∧
    2 * text.length + 2 ≤ 5 * bytes.length := by
  have hlen : bytes.length = 2 := by
    rw [h.stored]
    rfl
  have := h.short
  exact ⟨⟨fun c hc => Or.inl (h.digits c hc), by omega⟩, by omega⟩

theorem measured_ends (h : Ends text bytes) : Measured 10 text bytes := by
  rcases h with h | ⟨hlen, rfl⟩
  · obtain ⟨hm, -⟩ := measured_hextet h
    exact ⟨hm.plain, by have := hm.short; omega⟩
  · have := length_inetNtop4 hlen
    refine ⟨fun c hc => ?_, by omega⟩
    rcases plain_inetNtop4 hlen hc with hd | rfl
    · exact Or.inl hd
    · exact Or.inr (Or.inr rfl)

theorem measured_groups (hl : ∀ {text bytes}, last text bytes → Measured n text bytes)
    (h : Groups last text bytes) : Measured n text bytes := by
  induction h with
  | one h => exact hl h
  | more h _ ih =>
    obtain ⟨hm, hlen⟩ := measured_hextet h
    have := ih.short
    refine ⟨fun c hc => ?_, ?_⟩
    · rcases List.mem_append.mp hc with hc | hc
      · exact hm.plain c hc
      · rcases List.mem_cons.mp hc with rfl | hc
        · exact Or.inr (Or.inl rfl)
        · exact ih.plain c hc
    · simp only [List.length_append, List.length_cons]
      omega

theorem measured_half (hl : ∀ {text bytes}, last text bytes → Measured n text bytes)
    (h : Half last text bytes) : Measured n text bytes := by
  rcases h with ⟨rfl, rfl⟩ | h
  · exact ⟨nofun, Nat.zero_le _⟩
  · exact measured_groups hl h

/-- All that is accepted fits into the buffer of `str`. -/
theorem measured_denotes (h : Denotes6 text bytes) :
    (∀ c ∈ text, Plain c) ∧ text.length ≤ 45 ∧ ':' ∈ text ∧ bytes.length = 16 := by
  cases h with
  | full h hlen =>
    have hm := measured_groups measured_ends h
    have := hm.short
    refine ⟨hm.plain, by omega, ?_, hlen⟩
    cases h with
    | one h =>
      rcases h with h | ⟨hfour, -⟩
      · rw [h.stored] at hlen
        cases hlen
      · omega
    | more _ _ => simp
  | compressed hh hl hs =>
    have hleft := measured_half (fun h => (measured_hextet h).1) hh
    have hright := measured_half measured_ends hl
    have := hleft.short
    have := hright.short
    refine ⟨fun c hc => ?_, ?_, by simp, ?_⟩
    · simp only [List.mem_append, List.mem_cons] at hc
      rcases hc with hc | rfl | rfl | hc
      · exact hleft.plain c hc
      · exact Or.inr (Or.inl rfl)
      · exact Or.inr (Or.inl rfl)
      · exact hright.plain c hc
    · simp only [List.length_append, List.length_cons]
      omega
    · simp only [List.length_append, List.length_replicate]
      omega

end Wetnork.Inet

namespace Wetnork.IPAddress

open Numerals Inet

inductive Fault where
  | invalidArgument (what : String)
deriving DecidableEq, Repr

/-- `c_str()` as a C function sees it: up to the first NUL. -/
def cStr (addr : List Char) : List Char := addr.takeWhile (· ≠ Char.ofNat 0)

/-- `IPAddress::parse`: the colon is looked for in the whole string. -/
def parse (memory : Storage) (addr : List Char) : Except Fault IPAddress :=
  if ':' ∈ addr then
    match inetPton6 (cStr addr) with
    | some native => .ok (construct memory .ipv6 native)
    | none => .error (.invalidArgument "Cannot parse address")
  else
    match inetPton4 (cStr addr) with
    | some native => .ok (construct memory .ipv4 native)
    | none => .error (.invalidArgument "Cannot parse address")

/-- `INET6_ADDRSTRLEN`. -/
def addrStrLen : ℕ := 46

/-- `IPAddress::str`; `none` where `inet_ntop` returns a null pointer because text and NUL do not
fit into the buffer. -/
def str (ip : IPAddress) : Option (List Char) :=
  let text := match ip.family with
    | .ipv4 => inetNtop4 ip.native
    | .ipv6 => inetNtop6 ip.native
  if text.length + 1 > addrStrLen then none else some text

/-- Texts of addresses, by the family. -/
def Denotes : AddressFamily → List Char → Bytes → Prop
  | .ipv4, text, bytes => bytes.length = 4 ∧ text = inetNtop4 bytes
  | .ipv6, text, bytes => Denotes6 text bytes

variable {ip other : IPAddress} {memory : Storage} {addr : List Char} {bytes : Bytes}

theorem native_construct_ipv4 (memory : Storage) (h : bytes.length = 4) :
    (construct memory .ipv4 bytes).native = bytes := native_construct memory .ipv4 h

theorem native_construct_ipv6 (memory : Storage) (h : bytes.length = 16) :
    (construct memory .ipv6 bytes).native = bytes := native_construct memory .ipv6 h

theorem parse_of_denotes {family : AddressFamily} (hf : family = .ipv6 ↔ ':' ∈ addr)
    (h : Denotes family (cStr addr) bytes) :
    parse memory addr = .ok (construct memory family bytes) := by
  cases family with
  | ipv4 =>
    have hcolon : ':' ∉ addr := fun hmem => nomatch hf.mpr hmem
    simp only [parse, if_neg hcolon, inetPton4_eq_some_iff.mpr h]
  | ipv6 => simp only [parse, if_pos (hf.mp rfl), inetPton6_eq_some_iff.mpr h]

theorem denotes_of_parse (h : parse memory addr = .ok ip) :
    (ip.family = .ipv6 ↔ ':' ∈ addr) ∧ Denotes ip.family (cStr addr) ip.native ∧
      ip = construct memory ip.family ip.native := by
  unfold parse at h
  split at h
  · next hcolon =>
    split at h
    · next native hnative =>
      obtain rfl := Except.ok.inj h
      have hd := inetPton6_eq_some_iff.mp hnative
      have hn := native_construct_ipv6 memory (measured_denotes hd).2.2.2
      exact ⟨iff_of_true rfl hcolon, by rwa [hn], by rw [hn]; rfl⟩
    · cases h
  · next hcolon =>
    split at h
    · next native hnative =>
      obtain rfl := Except.ok.inj h
      have hd := inetPton4_eq_some_iff.mp hnative
      have hn := native_construct_ipv4 memory hd.1
      exact ⟨iff_of_false nofun hcolon, by rwa [hn], by rw [hn]; rfl⟩
    · cases h

/-- `parse` takes exactly the texts of addresses: as far as the first NUL those of IPv6 when there
is a colon anywhere in the string, dotted quads otherwise. Everything else is reported. -/
theorem parse_accepts_grammar (memory : Storage) (addr : List Char) :
    (∀ ip, parse memory addr = .ok ip ↔
      (ip.family = .ipv6 ↔ ':' ∈ addr) ∧ Denotes ip.family (cStr addr) ip.native ∧
        ip = construct memory ip.family ip.native) ∧
    ((∃ ip, parse memory addr = .ok ip) ∨
      parse memory addr = .error (.invalidArgument "Cannot parse address")) := by
  refine ⟨fun ip => ⟨denotes_of_parse, fun ⟨hf, hd, hip⟩ => ?_⟩, ?_⟩
  · rw [parse_of_denotes hf hd, ← hip]
  · unfold parse
    split <;> split
    all_goals simp

theorem cStr_eq_self (h : ∀ c ∈ addr, Plain c) : cStr addr = addr := by
  rw [cStr, List.takeWhile_eq_self_iff]
  intro c hc
  rw [decide_eq_true_eq]
  rintro rfl
  exact absurd (h _ hc) (by unfold Plain; decide)

/-- The text of an address fits into the buffer, and is one of those that denote it. -/
theorem str_denotes (ip : IPAddress) : ∃ text, ip.str = some text ∧ cStr text = text ∧
    (ip.family = .ipv6 ↔ ':' ∈ text) ∧ Denotes ip.family text ip.native := by
  cases hf : ip.family with
  | ipv4 =>
    have hlen : ip.native.length = 4 := by
      rw [length_native, nativeSize_ipv4 hf]
    have hplain := fun c (hc : c ∈ inetNtop4 ip.native) => plain_inetNtop4 hlen hc
    refine ⟨inetNtop4 ip.native, ?_, cStr_eq_self fun c hc => ?_, ?_, hlen, rfl⟩
    · have := length_inetNtop4 hlen
      simp only [str, hf, addrStrLen]
      rw [if_neg (by omega)]
    · exact (hplain c hc).imp_right Or.inr
    · refine iff_of_false nofun fun hc => absurd (hplain _ hc) (by decide)
  | ipv6 =>
    have hlen : ip.native.length = 16 := by
      rw [length_native, nativeSize_ipv6 hf]
    have hd := denotes_inetNtop6 hlen
    obtain ⟨hplain, hle, hcolon, -⟩ := measured_denotes hd
    refine ⟨inetNtop6 ip.native, ?_, cStr_eq_self hplain, iff_of_true rfl hcolon, hd⟩
    simp only [str, hf, addrStrLen]
    rw [if_neg (by omega)]

theorem parse_str (memory : Storage) {text : List Char} (h : ip.str = some text) :
    ∃ other, parse memory text = .ok other ∧ equal other ip := by
  obtain ⟨text', hs, hc, hf, hd⟩ := str_denotes ip
  obtain rfl : text = text' := Option.some.inj (h.symm.trans hs)
  rw [← hc] at hd
  refine ⟨_, parse_of_denotes hf hd, equal_iff.mpr ⟨rfl, ?_⟩⟩
  refine native_construct memory ip.family ?_
  rw [length_native]
  exact nativeSize_congr rfl

/-- Every address has a text, which fits into the buffer. Parsed back it gives an equal address,
and it is the text of no address that is not equal. -/
theorem text_round_trip (ip : IPAddress) : ∃ text, ip.str = some text ∧
    (∀ memory, ∃ other, parse memory text = .ok other ∧ equal other ip) ∧
    ∀ other : IPAddress, other.str = some text ↔ equal other ip := by
  obtain ⟨text, hs, -⟩ := str_denotes ip
  refine ⟨text, hs, fun memory => parse_str memory hs, fun other => ⟨fun ho => ?_, fun he => ?_⟩⟩
  · let memory : Storage := ⟨List.replicate 16 0, rfl⟩
    obtain ⟨first, hfirst, he⟩ := parse_str memory hs
    obtain ⟨second, hsecond, he'⟩ := parse_str memory ho
    obtain rfl : first = second := Except.ok.inj (hfirst.symm.trans hsecond)
    rw [equal_iff] at he he' ⊢
    exact ⟨he'.1.symm.trans he.1, he'.2.symm.trans he.2⟩
  · obtain ⟨hf, hn⟩ := equal_iff.mp he
    rw [← hs, str, str, hf, hn]

end Wetnork.IPAddress
