import Coda.Al.AccessList
import Mathlib.Data.List.TakeWhile

/-!
Texts of access lists. For every text that `AL_Internalize` reads there is one with the same
counts and names and with any other rights, and it reads that one too.
-/

namespace Coda.Al

open List

/-! ### Numbers -/

/-- The last `k` decimal digits. -/
def decimal : Nat → Nat → List Char
  | 0, _ => []
  | k + 1, n => decimal k (n / 10) ++ [Char.ofNat (48 + n % 10)]

theorem isDigit_ofNat {d : Nat} (h : d < 10) :
    (Char.ofNat (48 + d)).isDigit = true ∧ digit (Char.ofNat (48 + d)) = d ∧
      isspace (Char.ofNat (48 + d)) = false := by
  have all : ∀ d < 10, (Char.ofNat (48 + d)).isDigit = true ∧ digit (Char.ofNat (48 + d)) = d ∧
      isspace (Char.ofNat (48 + d)) = false := by decide
  exact all d h

variable {k n : Nat} {nameToId : List Char → Int} {names : List (List Char)} {rights : List Nat}

theorem decimal_mem {c : Char} (h : c ∈ decimal k n) : c.isDigit = true ∧ isspace c = false := by
  induction k generalizing n with
  | zero => cases h
  | succ k ih =>
    rw [decimal, mem_append, mem_singleton] at h
    rcases h with h | rfl
    · exact ih h
    · have := isDigit_ofNat (Nat.mod_lt n (by decide : 0 < 10))
      exact ⟨this.1, this.2.2⟩

theorem foldl_decimal (h : n < 10 ^ k) :
    (decimal k n).foldl (fun n c => 10 * n + digit c) 0 = n := by
  induction k generalizing n with
  | zero =>
    rw [decimal, foldl_nil]
    omega
  | succ k ih =>
    rw [decimal, foldl_append, ih (by omega), foldl_cons, foldl_nil,
      (isDigit_ofNat (Nat.mod_lt n (by decide))).2.1]
    omega

theorem decimal_ne_nil (hk : 0 < k) : decimal k n ≠ [] := by
  cases k with
  | zero => omega
  | succ k => exact append_ne_nil_of_right_ne_nil _ (cons_ne_nil _ _)

theorem takeWhile_append_of_all {α : Type*} {q : α → Bool} {l : List α} {y : α} {m : List α}
    (hl : ∀ x ∈ l, q x = true) (hy : q y = false) :
    (l ++ y :: m).takeWhile q = l ∧ (l ++ y :: m).dropWhile q = y :: m := by
  rw [takeWhile_append_of_pos hl, dropWhile_append_of_pos hl,
    takeWhile_cons_of_neg (by rw [hy]; decide), dropWhile_cons_of_neg (by rw [hy]; decide),
    append_nil]
  exact ⟨rfl, rfl⟩

/-- `%d` reads a number back that white space precedes and follows. -/
theorem scanInt_decimal (ws : List Char) (hws : ∀ c ∈ ws, isspace c = true) (hk : 0 < k)
    (hn : n < 10 ^ k) (hmax : n ≤ 2147483647) (rest : List Char) :
    scanInt (ws ++ (decimal k n ++ '\n' :: rest)) = .ok (some (n, '\n' :: rest)) := by
  obtain ⟨c, cs, hcs⟩ := exists_cons_of_ne_nil (decimal_ne_nil hk)
  have hc := decimal_mem (by rw [hcs]; exact (.head _))
  have hdrop : (ws ++ (decimal k n ++ '\n' :: rest)).dropWhile isspace = decimal k n ++ '\n' :: rest := by
    rw [dropWhile_append_of_pos hws, hcs, cons_append,
      dropWhile_cons_of_neg (by rw [hc.2]; decide)]
  have hhead : (decimal k n ++ '\n' :: rest).head? = some c := by
    rw [hcs]
    rfl
  have hminus : ¬ some c = some '-' := fun h => by
    rw [Option.some.inj h] at hc
    exact absurd hc.1 (by decide)
  have hplus : ¬ some c = some '+' := fun h => by
    rw [Option.some.inj h] at hc
    exact absurd hc.1 (by decide)
  obtain ⟨htake, hrest⟩ := takeWhile_append_of_all (y := '\n')
    (fun x hx => (decimal_mem hx).1) (by decide)
  unfold scanInt
  dsimp only
  rw [hdrop, hhead, if_neg hminus, if_neg (not_or.mpr ⟨hminus, hplus⟩), htake, hrest,
    if_neg (decimal_ne_nil hk), foldl_decimal hn, if_neg (by omega), one_mul]

/-! ### Entries -/

/-- A name that `%s` reads into `tbuf`. -/
structure IsName (name : List Char) : Prop where
  ne_nil : name ≠ []
  length_le : name.length ≤ prsMaxNameLen
  no_space : ∀ c ∈ name, isspace c = false

theorem scanName_name {name : List Char} (h : IsName name) {c : Char} (hc : isspace c = true)
    (rest : List Char) : scanName (name ++ c :: rest) = .ok (some (name, c :: rest)) := by
  obtain ⟨d, ds, rfl⟩ := exists_cons_of_ne_nil h.ne_nil
  have hd := h.no_space d (.head _)
  obtain ⟨htake, hdrop⟩ := takeWhile_append_of_all (q := fun c => !isspace c)
    (fun x hx => by rw [h.no_space x hx]; rfl) (by rw [hc]; rfl)
  unfold scanName
  dsimp only
  rw [cons_append, dropWhile_cons_of_neg (by rw [hd]; decide), ← cons_append, htake,
    hdrop, if_neg h.ne_nil, if_neg (not_lt.mpr h.length_le)]

theorem isName_of_scanName {s name rest : List Char} (h : scanName s = .ok (some (name, rest))) :
    IsName name := by
  unfold scanName at h
  dsimp only at h
  split at h
  · cases h
  split at h
  · cases h
  next hnil hlen =>
  cases h
  refine ⟨hnil, not_lt.mp hlen, fun c hc => ?_⟩
  simpa using mem_takeWhile_imp hc

/-- One line of the external form. -/
def entryLine (name : List Char) (rights : Nat) : List Char :=
  name ++ '\t' :: (decimal 7 rights ++ ['\n'])

theorem nextLine_append {line : List Char} (h : ∀ c ∈ line, c ≠ '\n') (rest : List Char) :
    nextLine (line ++ '\n' :: rest) = some rest := by
  unfold nextLine
  rw [(takeWhile_append_of_all (fun x hx => decide_eq_true (h x hx))
    (by decide)).2]

theorem exists_of_bind_ok {β γ : Type} {x : Except AlError β} {r : γ} {f : β → Except AlError γ}
    (h : x >>= f = .ok r) : ∃ y, x = .ok y ∧ f y = .ok r := by
  match x, h with
  | .ok y, h => exact ⟨y, rfl, h⟩

/-- The names that were read, with the entries they gave. -/
theorem names_of_readEntries {nextc : Option (List Char)} {es : List AccessEntry}
    (h : readEntries nameToId n nextc = .ok es) :
    es.length = n ∧ ∃ names : List (List Char), es.map AccessEntry.id = names.map nameToId ∧
      ∀ name ∈ names, IsName name ∧ nameToId name ≠ 0 := by
  induction n generalizing nextc es with
  | zero =>
    obtain rfl : [] = es := Except.ok.inj h
    exact ⟨rfl, [], rfl, nofun⟩
  | succ n ih =>
    cases nextc with
    | none => exact absurd h (by simp [readEntries])
    | some nextc =>
      obtain ⟨o, hname, h⟩ := exists_of_bind_ok h
      split at h
      case h_2 => cases h
      next tbuf _ =>
      obtain ⟨_, -, h⟩ := exists_of_bind_ok h
      split at h
      case h_2 => cases h
      split_ifs at h with hid
      obtain ⟨es', hes, h⟩ := exists_of_bind_ok h
      cases h
      obtain ⟨hlen, names, hids, hnames⟩ := ih hes
      refine ⟨by rw [length_cons, hlen], tbuf :: names, ?_, fun name h => ?_⟩
      · rw [map_cons, hids, map_cons]
      · rcases mem_cons.mp h with rfl | h
        · exact ⟨isName_of_scanName hname, hid⟩
        · exact hnames name h

theorem readAlist_spec {elist : List Char} {p m : Nat} {es : List AccessEntry}
    (h : readAlist nameToId elist = .ok (p, m, es)) :
    p + m ≤ 20 ∧ es.length = p + m ∧
      ∃ names : List (List Char), es.map AccessEntry.id = names.map nameToId ∧
        ∀ name ∈ names, IsName name ∧ nameToId name ≠ 0 := by
  obtain ⟨_, -, h⟩ := exists_of_bind_ok h
  split at h
  case h_2 => cases h
  obtain ⟨_, -, h⟩ := exists_of_bind_ok h
  split at h
  case h_2 => cases h
  split at h
  · cases h
  split at h
  · cases h
  split at h
  · cases h
  next hmax hneg =>
  split at h
  · obtain ⟨es', hes, h⟩ := exists_of_bind_ok h
    split_ifs at h with hcount
    cases h
    obtain ⟨hlen, names, hnames⟩ := names_of_readEntries hes
    unfold alMaxExtEntries at hmax
    exact ⟨by omega, by omega, names, hnames⟩
  · cases h

/-- The lines of the external form. -/
def entryLines (names : List (List Char)) (rights : List Nat) : List Char :=
  (names.zip rights).flatMap fun x => entryLine x.1 x.2

theorem readEntries_entryLines (hlen : names.length = rights.length)
    (hnames : ∀ name ∈ names, IsName name ∧ nameToId name ≠ 0)
    (hrights : ∀ r ∈ rights, r < 10 ^ 7) :
    readEntries nameToId names.length (some (entryLines names rights)) =
      .ok (List.zipWith (fun name r => ⟨nameToId name, BitVec.ofInt 32 (r : Nat)⟩) names rights) := by
  induction names generalizing rights with
  | nil => rfl
  | cons name names ih =>
    cases rights with
    | nil => exact absurd hlen (by simp)
    | cons r rights =>
      obtain ⟨hname, hid⟩ := hnames name (.head _)
      have hr : r < 10 ^ 7 := hrights r (.head _)
      have ih := ih (Nat.succ.inj hlen)
        (fun x hx => hnames x (.tail name hx))
        (fun x hx => hrights x (.tail r hx))
      have htext : entryLines (name :: names) (r :: rights) =
          name ++ '\t' :: (decimal 7 r ++ '\n' :: entryLines names rights) := by
        rw [entryLines, zip_cons_cons, flatMap_cons, entryLine]
        simp only [append_assoc, cons_append]
        rfl
      have hscan := scanInt_decimal ['\t'] (forall_mem_singleton.mpr rfl) (by decide : 0 < 7) hr (by omega)
        (entryLines names rights)
      have hnext : nextLine (name ++ '\t' :: (decimal 7 r ++ '\n' :: entryLines names rights)) =
          some (entryLines names rights) := by
        rw [← cons_append, ← append_assoc]
        refine nextLine_append (fun c hc => ?_) _
        rintro rfl
        rcases mem_append.mp hc with hc | hc
        · exact absurd (hname.no_space _ hc) (by decide)
        · rcases mem_cons.mp hc with hc | hc
          · exact absurd hc (by decide)
          · exact absurd (decimal_mem hc).2 (by decide)
      rw [length_cons, htext, readEntries, scanName_name hname (by decide)]
      rw [singleton_append] at hscan
      simp only [bind, Except.bind, hscan, if_neg hid, hnext, ih, pure, Except.pure,
        zipWith_cons_cons]

theorem map_id_zipWith (hlen : names.length = rights.length) :
    (List.zipWith (fun name (r : Nat) => (⟨nameToId name, BitVec.ofInt 32 r⟩ : AccessEntry)) names
      rights).map AccessEntry.id = names.map nameToId := by
  induction names generalizing rights with
  | nil => rfl
  | cons name names ih =>
    cases rights with
    | nil => exact absurd hlen (by simp)
    | cons r rights =>
      rw [zipWith_cons_cons, map_cons, map_cons, ih (Nat.succ.inj hlen)]

/-- A text with any counts, names and rights. -/
def externalText (p m : Nat) (names : List (List Char)) (rights : List Nat) : List Char :=
  decimal 2 p ++ '\n' :: (decimal 2 m ++ '\n' :: entryLines names rights)

theorem readAlist_externalText {p m : Nat} (hmax : p + m ≤ 20) (hnames : names.length = p + m)
    (hlen : names.length = rights.length)
    (hvalid : ∀ name ∈ names, IsName name ∧ nameToId name ≠ 0)
    (hrights : ∀ r ∈ rights, r < 10 ^ 7) :
    readAlist nameToId (externalText p m names rights) = .ok (p, m,
      List.zipWith (fun name r => ⟨nameToId name, BitVec.ofInt 32 (r : Nat)⟩) names rights) := by
  have hread := readEntries_entryLines hlen hvalid hrights
  have hp := scanInt_decimal [] (by simp) (by decide : 0 < 2) (n := p) (by omega) (by omega)
    (decimal 2 m ++ '\n' :: entryLines names rights)
  have hm := scanInt_decimal ['\n'] (forall_mem_singleton.mpr rfl) (by decide : 0 < 2) (n := m) (by omega)
    (by omega) (entryLines names rights)
  rw [nil_append] at hp
  rw [singleton_append] at hm
  have digits : ∀ {n : Nat}, ∀ c ∈ decimal 2 n, c ≠ '\n' := by
    rintro n c hc rfl
    exact absurd (decimal_mem hc).2 (by decide)
  have hline := nextLine_append (digits (n := p)) (decimal 2 m ++ '\n' :: entryLines names rights)
  have hline' := nextLine_append (digits (n := m)) (entryLines names rights)
  have htotal : ((p : Int) + (m : Int)).toNat = names.length := by omega
  unfold readAlist externalText
  simp only [bind, Except.bind, hp, hm, hline, hline', htotal, hread, pure, Except.pure]
  rw [if_neg (by omega), if_neg (by unfold alMaxExtEntries; omega), if_neg (by omega),
    if_neg (by omega), Int.toNat_natCast, Int.toNat_natCast]

end Coda.Al
