import TallyOwl.Wire.Scrub

/-! The value of a protected key never decides what the scrubber lets through (`scrub.rs`). The loop knows what it
passed by the word and the blank right before it, so two texts that differ in such a value are read in step. -/
namespace TallyOwl.Scrub
open Wire List

/-- A letter or a digit is no blank and none of the marks that the loop looks for. -/
structure Unicode.Plain (u : Unicode) : Prop where
  ends : ∀ c, endsValue c = true → u.isAlphanumeric c = false
  marks : ∀ c ∈ ['=', ':', '?', Char.ofNat 34, Char.ofNat 39], u.isAlphanumeric c = false

/-- What a value may be made of: no blank, no quote and no delimiter. -/
def Secret (value : List Char) : Prop :=
  value ≠ [] ∧ ∀ c ∈ value, endsValue c = false ∧ c ≠ Char.ofNat 34 ∧ c ≠ Char.ofNat 39

/-- Where the loop goes on after a separator. -/
def skipped (tail : List Char) : List Char := skipValue (tail.dropWhile (· == ' '))

def wordBefore (u : Unicode) (before : List Char) : String := .ofList (before.takeWhile (isWord u)).reverse

def solid (c : Char) : Bool := !isWhitespace c

def insideValue (c : Char) : Bool := !endsValue c

/-- What the loop reads of the text behind it. -/
def Alike (u : Unicode) (before before' : List Char) : Prop :=
  before.takeWhile (isWord u) = before'.takeWhile (isWord u) ∧ before.head?.any solid = before'.head?.any solid

section
variable {u : Unicode} {before before' tail rest : List Char} {c : Char}

theorem scan_succ (fuel : ℕ) : scan u (fuel + 1) before (c :: tail) =
    if (c = '=' ∨ c = ':') ∧ isProtected u (wordBefore u before) = true then
      c :: tail.takeWhile (· == ' ') ++ removed.toList ++
        scan u fuel (((c :: tail).take (tail.length + 1 - (skipped tail).length)).reverse ++ before) (skipped tail)
    else if c = '?' ∧ before.head?.any solid = true ∧ tail.takeWhile solid ≠ [] then
      c :: removed.toList ++ scan u fuel ((c :: tail.takeWhile solid).reverse ++ before) (tail.dropWhile solid)
    else c :: scan u fuel (c :: before) tail := by
  rw [reverse_cons, append_assoc (tail.takeWhile solid).reverse]
  rfl

theorem skipValue_cons (quote : Char) : skipValue (quote :: tail) =
    if quote = Char.ofNat 34 ∨ quote = Char.ofNat 39 then (tail.dropWhile fun c => c != quote).tail
    else (quote :: tail).dropWhile insideValue := rfl

theorem skipped_suffix (tail : List Char) : skipped tail <:+ tail := by
  refine IsSuffix.trans ?_ (dropWhile_suffix (· == ' '))
  unfold skipped
  cases tail.dropWhile (· == ' ') with
  | nil => exact suffix_refl _
  | cons quote rest =>
    rw [skipValue_cons]
    split
    · exact (tail_suffix _).trans ((dropWhile_suffix _).trans (suffix_cons _ _))
    · exact dropWhile_suffix _

theorem read_skipped : (c :: tail).take (tail.length + 1 - (skipped tail).length) ++ skipped tail = c :: tail := by
  obtain ⟨front, whole⟩ := skipped_suffix tail
  generalize skipped tail = rest at whole ⊢
  subst whole
  rw [length_append, show front.length + rest.length + 1 - rest.length = (c :: front).length by simp; omega,
    ← cons_append, take_left]

theorem Alike.append (alike : Alike u before before') (read : List Char) : Alike u (read ++ before) (read ++ before') := by
  refine ⟨?_, ?_⟩
  · rw [takeWhile_append, takeWhile_append, alike.1]
  · cases read with
    | nil => exact alike.2
    | cons x read => rfl

theorem alike_closed (closes : isWord u c = false) : Alike u (c :: before) (c :: before') := by
  refine ⟨?_, rfl⟩
  rw [takeWhile_cons_of_neg (by simp [closes]), takeWhile_cons_of_neg (by simp [closes])]

theorem scan_alike {fuel fuel' : ℕ} (enough : rest.length ≤ fuel) (enough' : rest.length ≤ fuel')
    (alike : Alike u before before') : scan u fuel before rest = scan u fuel' before' rest := by
  induction fuel generalizing fuel' before before' rest with
  | zero => rw [length_eq_zero_iff.mp (Nat.le_zero.mp enough)]; cases fuel' <;> rfl
  | succ fuel ih =>
    cases rest with
    | nil => cases fuel' <;> rfl
    | cons c tail =>
      rw [length_cons] at enough enough'
      obtain ⟨fuel', rfl⟩ := Nat.exists_eq_add_one_of_ne_zero (show fuel' ≠ 0 by omega)
      have on (read : List Char) {left : List Char} (less : left <:+ tail) :
          scan u fuel (read ++ before) left = scan u fuel' (read ++ before') left :=
        have few := less.length_le
        ih (by omega) (by omega) (alike.append read)
      have one : scan u fuel (c :: before) tail = scan u fuel' (c :: before') tail := on [c] (suffix_refl _)
      rw [scan_succ, scan_succ, wordBefore, wordBefore, alike.1, alike.2, on _ (skipped_suffix _),
        on _ (dropWhile_suffix _), one]

/-- Where a value ended, what was read no longer matters. -/
theorem scan_ended (plain : u.Plain) {fuel fuel' : ℕ} (enough : rest.length ≤ fuel) (enough' : rest.length ≤ fuel')
    (ended : ∀ c ∈ rest.head?, endsValue c = true) : scan u fuel before rest = scan u fuel' before' rest := by
  cases rest with
  | nil => cases fuel <;> cases fuel' <;> rfl
  | cons c tail =>
    have ends := ended c rfl
    rw [length_cons] at enough enough'
    obtain ⟨fuel, rfl⟩ := Nat.exists_eq_add_one_of_ne_zero (show fuel ≠ 0 by omega)
    obtain ⟨fuel', rfl⟩ := Nat.exists_eq_add_one_of_ne_zero (show fuel' ≠ 0 by omega)
    have mark : c ≠ '=' ∧ c ≠ ':' ∧ c ≠ '?' ∧ c ≠ '_' ∧ c ≠ '-' := by
      refine ⟨?_, ?_, ?_, ?_, ?_⟩ <;> (rintro rfl; revert ends; decide)
    rw [scan_succ, scan_succ, if_neg (by simp [mark]), if_neg (by simp [mark]), if_neg (by simp [mark]),
      if_neg (by simp [mark])]
    refine congrArg (c :: ·) (scan_alike (by omega) (by omega) (alike_closed ?_))
    simp [isWord, plain.ends c ends, mark]

end

/-- How two texts that begin alike are read on, where one has `k` and the other `k'` behind the beginning: both inside
it, both where a value ended, or both behind a mark that closes a word. -/
inductive Rejoins (u : Unicode) (p k k' : List Char) : List Char → List Char → Prop where
  | inside (front left : List Char) (split : p = front ++ left) : Rejoins u p k k' (left ++ k) (left ++ k')
  | ended {rest : List Char} (ended : ∀ c ∈ rest.head?, endsValue c = true) : Rejoins u p k k' rest rest
  | closed (front front' : List Char) {rest : List Char} {c : Char} (closes : isWord u c = false)
      (split : p ++ k = front ++ c :: rest) (split' : p ++ k' = front' ++ c :: rest) : Rejoins u p k k' rest rest

section
variable {u : Unicode} {p k k' rest rest' h h' : List Char} {c : Char}

theorem Rejoins.extend (rejoins : Rejoins u p k k' rest rest') (more : List Char) :
    Rejoins u (more ++ p) k k' rest rest' := by
  cases rejoins with
  | inside front left split => exact .inside (more ++ front) left (by rw [split, append_assoc])
  | ended ends => exact .ended ends
  | closed front front' closes split split' =>
    refine .closed (more ++ front) (more ++ front') closes ?_ ?_
    · rw [append_assoc, split, append_assoc]
    · rw [append_assoc, split', append_assoc]

/-- One of them is read on as the other, where the beginning is read in step. -/
theorem Rejoins.scan (plain : u.Plain) (rejoins : Rejoins u p k k' rest rest') {fuel fuel' : ℕ} {read read' : List Char}
    (whole : read ++ rest = c :: (p ++ k)) (whole' : read' ++ rest' = c :: (p ++ k')) (before before' : List Char)
    (enough : rest.length ≤ fuel) (enough' : rest'.length ≤ fuel')
    (go : ∀ front left, p = front ++ left → (left ++ k).length ≤ fuel → (left ++ k').length ≤ fuel' →
      scan u fuel ((c :: front).reverse ++ before) (left ++ k) =
        scan u fuel' ((c :: front).reverse ++ before') (left ++ k')) :
    scan u fuel (read.reverse ++ before) rest = scan u fuel' (read'.reverse ++ before') rest' := by
  cases rejoins with
  | inside front left split =>
    have same : read = c :: front := (append_left_inj (left ++ k)).mp (by rw [whole, split]; simp)
    have same' : read' = c :: front := (append_left_inj (left ++ k')).mp (by rw [whole', split]; simp)
    rw [same, same']
    exact go front left split enough enough'
  | ended ends => exact scan_ended plain enough enough' ends
  | @closed front front' rest x closes split split' =>
    have same : read = c :: front ++ [x] := (append_left_inj rest).mp (by rw [whole, split]; simp)
    have same' : read' = c :: front' ++ [x] := (append_left_inj rest).mp (by rw [whole', split']; simp)
    rw [same, same', reverse_append, reverse_append]
    exact scan_alike enough enough' (alike_closed closes)

theorem head_dropWhile {q : Char → Bool} (stops : ∀ c, q c = false → endsValue c = true) (xs : List Char) :
    ∀ c ∈ (xs.dropWhile q).head?, endsValue c = true := by
  intro c first
  have falls := head?_dropWhile_not q xs
  rw [Option.mem_def.mp first] at falls
  exact stops c (by simpa using falls)

variable (suffix : List Char)

theorem dropWhile_through {q : Char → Bool} (through : ∀ x ∈ h, q x = true) : (p ++ (h ++ suffix)).dropWhile q =
    if p.dropWhile q = [] then suffix.dropWhile q else p.dropWhile q ++ (h ++ suffix) := by
  rw [dropWhile_append, dropWhile_append_of_pos through]
  simp only [List.isEmpty_iff]

theorem rejoins_dropWhile {q : Char → Bool} (stops : ∀ c, q c = false → endsValue c = true)
    (through : ∀ x ∈ h, q x = true) (through' : ∀ x ∈ h', q x = true) : Rejoins u p (h ++ suffix) (h' ++ suffix)
      ((p ++ (h ++ suffix)).dropWhile q) ((p ++ (h' ++ suffix)).dropWhile q) := by
  rw [dropWhile_through _ through, dropWhile_through _ through']
  split
  · exact .ended (head_dropWhile stops suffix)
  · exact .inside _ _ takeWhile_append_dropWhile.symm

theorem rejoins_quoted {quote : Char} (closes : isWord u quote = false) (through : quote ∉ h) (through' : quote ∉ h') :
    Rejoins u p (h ++ suffix) (h' ++ suffix) ((p ++ (h ++ suffix)).dropWhile fun c => c != quote).tail
      ((p ++ (h' ++ suffix)).dropWhile fun c => c != quote).tail := by
  have pass {xs : List Char} (none : quote ∉ xs) : ∀ x ∈ xs, (x != quote) = true :=
    fun x here => bne_iff_ne.mpr fun same => none (same ▸ here)
  rw [dropWhile_through _ (pass through), dropWhile_through _ (pass through')]
  split
  · -- the quote that closes is behind the value
    have whole := @takeWhile_append_dropWhile _ (fun c => c != quote) suffix
    cases left : suffix.dropWhile fun c => c != quote with
    | nil => exact .ended (by simp)
    | cons c rest =>
      have falls := head?_dropWhile_not (fun c => c != quote) suffix
      rw [left] at falls whole
      obtain rfl : c = quote := by simpa using falls
      rw [tail_cons]
      exact .closed (p ++ (h ++ suffix.takeWhile fun x => x != c)) (p ++ (h' ++ suffix.takeWhile fun x => x != c)) closes
        (by rw [append_assoc, append_assoc, whole]) (by rw [append_assoc, append_assoc, whole])
  · rename_i here
    obtain ⟨y, left, same⟩ := exists_cons_of_ne_nil here
    rw [same]
    refine .inside ((p.takeWhile fun c => c != quote) ++ [y]) left ?_
    rw [append_assoc, singleton_append, ← same, takeWhile_append_dropWhile]

theorem Secret.apart {value : List Char} (secret : Secret value) : ∃ x rest, value = x :: rest ∧ (x == ' ') = false ∧
    ¬(x = Char.ofNat 34 ∨ x = Char.ofNat 39) := by
  obtain ⟨x, rest, rfl⟩ := exists_cons_of_ne_nil secret.1
  obtain ⟨ends, quote, quote'⟩ := secret.2 x (.head _)
  refine ⟨x, rest, rfl, beq_eq_false_iff_ne.mpr ?_, not_or.mpr ⟨quote, quote'⟩⟩
  rintro rfl
  revert ends
  decide

theorem Secret.through {value : List Char} (secret : Secret value) : ∀ x ∈ value, insideValue x = true :=
  fun x here => congrArg not (secret.2 x here).1

theorem ends_of_not_inside {c : Char} (stop : insideValue c = false) : endsValue c = true := by
  simpa [insideValue] using stop

theorem skipValue_secret (secret : Secret h) :
    skipValue ((h ++ suffix).dropWhile (· == ' ')) = (h ++ suffix).dropWhile insideValue := by
  obtain ⟨x, rest, rfl, space, quote⟩ := secret.apart
  rw [cons_append, dropWhile_cons_of_neg (by simp [space]), skipValue_cons, if_neg quote]

theorem rejoins_skipped (plain : u.Plain) (secret : Secret h) (secret' : Secret h') :
    Rejoins u p (h ++ suffix) (h' ++ suffix) (skipped (p ++ (h ++ suffix))) (skipped (p ++ (h' ++ suffix))) := by
  have whole := @takeWhile_append_dropWhile _ (· == ' ') p
  have drop (xs : List Char) := @dropWhile_append _ (· == ' ') p xs
  have value (left : List Char) := @rejoins_dropWhile u left h h' suffix insideValue (fun _ => ends_of_not_inside)
    secret.through secret'.through
  unfold skipped
  rw [drop, drop]
  cases spaces : p.dropWhile (· == ' ') with
  | nil =>
    rw [isEmpty_nil, if_pos rfl, if_pos rfl, skipValue_secret _ secret, skipValue_secret _ secret']
    simpa using (value []).extend p
  | cons y left =>
    rw [spaces] at whole
    rw [isEmpty_cons, if_neg Bool.false_ne_true, if_neg Bool.false_ne_true, cons_append, cons_append, skipValue_cons,
      skipValue_cons, ← whole]
    split
    · rename_i quote
      have closes : isWord u y = false := by
        rcases quote with rfl | rfl <;> simp [isWord, plain.marks]
      have out {xs : List Char} (secret : Secret xs) : y ∉ xs :=
        fun here => quote.elim (secret.2 y here).2.1 (secret.2 y here).2.2
      have rejoins := (@rejoins_quoted u left h h' suffix y closes (out secret) (out secret')).extend
        (p.takeWhile (· == ' ') ++ [y])
      rwa [append_assoc, singleton_append] at rejoins
    · exact (value (y :: left)).extend _

end

/-- A key that is bare, its separator, and blanks where the value stands off. -/
structure Bare (u : Unicode) (key : List Char) (separator : Char) (gap : List Char) : Prop where
  shielded : isProtected u (.ofList key) = true
  words : key ≠ [] ∧ ∀ c ∈ key, isWord u c = true
  pair : separator = '=' ∨ separator = ':'
  blanks : ∀ c ∈ gap, (c == ' ') = true

section
variable {u : Unicode} {before before' key gap v w suffix : List Char} {c separator : Char}

theorem isWord_plain (plain : u.Plain) (word : isWord u c = true) : endsValue c = false ∧ c ≠ Char.ofNat 34 ∧
    c ≠ Char.ofNat 39 ∧ c ≠ '=' ∧ c ≠ ':' ∧ c ≠ '?' := by
  have marks := plain.marks c
  have ends := plain.ends c
  simp only [isWord, Bool.or_eq_true, beq_iff_eq] at word
  rcases word with (letter | rfl) | rfl
  · refine ⟨Bool.eq_false_iff.mpr fun blank => ?_, ?_, ?_, ?_, ?_, ?_⟩
    · rw [ends blank] at letter
      cases letter
    all_goals
      rintro rfl
      rw [marks (by simp)] at letter
      cases letter
  · decide
  · decide

theorem solid_of_not_ends (open_ : endsValue c = false) : solid c = true ∧ (c == ' ') = false := by
  refine ⟨?_, beq_eq_false_iff_ne.mpr ?_⟩
  · simp only [endsValue, Bool.or_eq_false_iff] at open_
    rw [solid, open_.1]
    rfl
  · rintro rfl
    revert open_
    decide

theorem Bare.secret (plain : u.Plain) (bare : Bare u key separator gap) (secret : Secret v) :
    Secret (key ++ separator :: v) := by
  refine ⟨by simp, fun x here => ?_⟩
  rcases mem_append.mp here with word | value
  · have word := isWord_plain plain (bare.words.2 x word)
    exact ⟨word.1, word.2.1, word.2.2.1⟩
  · rcases mem_cons.mp value with rfl | value
    · rcases bare.pair with rfl | rfl <;> decide
    · exact secret.2 x value

/-- From inside the key on, the value goes and the loop goes on where it ended. -/
theorem scan_key (plain : u.Plain) (bare : Bare u key separator gap) (secret : Secret v) {left : List Char} {fuel : ℕ}
    (word : (before.takeWhile (isWord u)).reverse ++ left = key) (words : ∀ c ∈ left, isWord u c = true)
    (enough : (left ++ separator :: (gap ++ (v ++ suffix))).length ≤ fuel) :
    ∃ after more, (suffix.dropWhile insideValue).length ≤ more ∧
      scan u fuel before (left ++ separator :: (gap ++ (v ++ suffix))) = left ++ separator :: gap ++ removed.toList ++
        scan u more after (suffix.dropWhile insideValue) := by
  induction left generalizing before fuel with
  | nil =>
    rw [nil_append, length_cons] at enough
    obtain ⟨fuel, rfl⟩ := Nat.exists_eq_add_one_of_ne_zero (show fuel ≠ 0 by omega)
    have gone : skipped (gap ++ (v ++ suffix)) = suffix.dropWhile insideValue := by
      rw [skipped, dropWhile_append_of_pos bare.blanks, skipValue_secret _ secret, dropWhile_append_of_pos secret.through]
    have shielded : isProtected u (wordBefore u before) = true := by
      rw [append_nil] at word
      rw [wordBefore, word]
      exact bare.shielded
    obtain ⟨x, rest, rfl, space, -⟩ := secret.apart
    rw [nil_append, scan_succ, if_pos ⟨bare.pair, shielded⟩, gone, takeWhile_append_of_pos bare.blanks,
      @cons_append _ x rest suffix, takeWhile_cons_of_neg (by simp [space]), append_nil]
    refine ⟨_, fuel, ?_, rfl⟩
    have less := (@dropWhile_suffix _ suffix insideValue).length_le
    simp only [length_append] at enough
    omega
  | cons k left ih =>
    have one := words k (.head _)
    have mark := isWord_plain plain one
    rw [cons_append, length_cons] at enough
    obtain ⟨fuel, rfl⟩ := Nat.exists_eq_add_one_of_ne_zero (show fuel ≠ 0 by omega)
    obtain ⟨after, more, less, same⟩ := @ih (k :: before) fuel
      (by rw [takeWhile_cons_of_pos one, reverse_cons, append_assoc]; exact word)
      (fun c here => words c (.tail _ here)) (by omega)
    refine ⟨after, more, less, ?_⟩
    rw [cons_append, scan_succ, if_neg (by simp [mark]), if_neg (by simp [mark]), same]
    rfl

theorem takeWhile_to {q : Char → Bool} {p rest : List Char} (stop : q c = false) :
    (p ++ c :: rest).takeWhile q = p.takeWhile q := by
  rw [takeWhile_append, takeWhile_cons_of_neg (by simp [stop]), append_nil]
  split
  · rename_i all
    exact ((List.takeWhile_prefix _).eq_of_length all).symm
  · rfl

theorem takeWhile_ne_nil {q : Char → Bool} {p rest rest' : List Char} (go : q c = true) :
    (p ++ c :: rest).takeWhile q ≠ [] ↔ (p ++ c :: rest').takeWhile q ≠ [] := by
  cases p with
  | nil => simp [go]
  | cons z p => rw [cons_append, cons_append, takeWhile_cons, takeWhile_cons]; split <;> simp

/-- Behind any beginning, two texts that differ in the value only are read alike. The value may stand off where nothing
in the beginning opens a value or a query string. -/
theorem scan_hides (plain : u.Plain) (bare : Bare u key separator gap) (secret : Secret v) (secret' : Secret w)
    {p : List Char} {fuel fuel' : ℕ} (alike : Alike u before before')
    (apart : ∀ c ∈ (p.reverse ++ before).head?, isWord u c = false)
    (apart' : ∀ c ∈ (p.reverse ++ before').head?, isWord u c = false)
    (reaches : gap = [] ∨ ∀ c ∈ p, c ≠ '=' ∧ c ≠ ':' ∧ c ≠ '?')
    (enough : (p ++ (key ++ separator :: (gap ++ (v ++ suffix)))).length ≤ fuel)
    (enough' : (p ++ (key ++ separator :: (gap ++ (w ++ suffix)))).length ≤ fuel') :
    scan u fuel before (p ++ (key ++ separator :: (gap ++ (v ++ suffix)))) =
      scan u fuel' before' (p ++ (key ++ separator :: (gap ++ (w ++ suffix)))) := by
  induction fuel using Nat.strong_induction_on generalizing p fuel' before before' with
  | _ fuel ih =>
    cases p with
    | nil =>
      have fresh {read : List Char} (apart : ∀ c ∈ ([] ++ read).head?, isWord u c = false) :
          (read.takeWhile (isWord u)).reverse ++ key = key := by
        cases read with
        | nil => rfl
        | cons c read => rw [takeWhile_cons_of_neg (by simp [apart c rfl])]; rfl
      obtain ⟨after, more, less, same⟩ := scan_key plain bare secret (fresh apart) bare.words.2 enough
      obtain ⟨after', more', less', same'⟩ := scan_key plain bare secret' (fresh apart') bare.words.2 enough'
      rw [nil_append, nil_append, same, same']
      exact congrArg _ (scan_ended plain less less' (head_dropWhile (fun _ => ends_of_not_inside) suffix))
    | cons c p =>
      rw [cons_append, length_cons] at enough enough'
      obtain ⟨fuel, rfl⟩ := Nat.exists_eq_add_one_of_ne_zero (show fuel ≠ 0 by omega)
      obtain ⟨fuel', rfl⟩ := Nat.exists_eq_add_one_of_ne_zero (show fuel' ≠ 0 by omega)
      set k := key ++ separator :: (gap ++ (v ++ suffix)) with own
      set k' := key ++ separator :: (gap ++ (w ++ suffix)) with own'
      have go (front left : List Char) (split : p = front ++ left) (less : (left ++ k).length ≤ fuel)
          (less' : (left ++ k').length ≤ fuel') : scan u fuel ((c :: front).reverse ++ before) (left ++ k) =
            scan u fuel' ((c :: front).reverse ++ before') (left ++ k') := by
        refine ih fuel (Nat.lt_succ_self fuel) (alike.append _) ?_ ?_ ?_ less less'
        · simpa [split] using apart
        · simpa [split] using apart'
        · exact reaches.imp id fun none x here => none x (.tail _ (split ▸ mem_append_right _ here))
      have shut (mark : c = '=' ∨ c = ':' ∨ c = '?') : k = (key ++ separator :: v) ++ suffix ∧
          k' = (key ++ separator :: w) ++ suffix := by
        have none : gap = [] := reaches.resolve_right fun none => by simp [none c (.head _)] at mark
        simp [own, own', none]
      obtain ⟨y, rest, named⟩ := exists_cons_of_ne_nil bare.words.1
      have first := solid_of_not_ends (isWord_plain plain (bare.words.2 y (named ▸ .head _))).1
      have few (xs : List Char) := (skipped_suffix xs).length_le
      have few' (xs : List Char) := (@dropWhile_suffix _ xs solid).length_le
      rw [cons_append, cons_append, scan_succ, scan_succ, wordBefore, wordBefore, ← alike.1, ← alike.2]
      split
      · rename_i pair
        obtain ⟨joined, joined'⟩ := shut (pair.1.imp id .inl)
        have rejoins := @rejoins_skipped u p _ _ suffix plain (bare.secret plain secret) (bare.secret plain secret')
        rw [← joined, ← joined'] at rejoins
        have spaces (xs : List Char) : (p ++ (key ++ xs)).takeWhile (· == ' ') = p.takeWhile (· == ' ') := by
          rw [named, cons_append]
          exact takeWhile_to first.2
        rw [own, own', spaces, spaces, ← own, ← own']
        exact congrArg _ (rejoins.scan plain read_skipped read_skipped before before'
          ((few _).trans (by omega)) ((few _).trans (by omega)) go)
      · have query : (p ++ k).takeWhile solid ≠ [] ↔ (p ++ k').takeWhile solid ≠ [] := by
          rw [own, own', named, cons_append, cons_append]
          exact takeWhile_ne_nil first.1
        by_cases asks : c = '?' ∧ before.head?.any solid = true ∧ (p ++ k).takeWhile solid ≠ []
        · obtain ⟨joined, joined'⟩ := shut (.inr (.inr asks.1))
          have through {v : List Char} (secret : Secret v) : ∀ x ∈ v, solid x = true :=
            fun x here => (solid_of_not_ends (secret.2 x here).1).1
          have rejoins := @rejoins_dropWhile u p _ _ suffix solid (fun x stop => by
            simp only [solid, Bool.not_eq_false'] at stop
            rw [endsValue, stop]
            rfl) (through (bare.secret plain secret)) (through (bare.secret plain secret'))
          rw [← joined, ← joined'] at rejoins
          rw [if_pos asks, if_pos (by rwa [← query])]
          exact congrArg _ (rejoins.scan plain (by simp) (by simp) before before' ((few' _).trans (by omega))
            ((few' _).trans (by omega)) go)
        · rw [if_neg asks, if_neg (by rwa [← query])]
          exact congrArg _ (go [] p rfl (by omega) (by omega))

end

/-- The letters and digits of ASCII. -/
def ascii : Unicode := ⟨Char.isAlphanum, fun text => .ofList (text.toList.map Char.toLower)⟩

theorem plain_ascii : ascii.Plain where
  ends c ends := by
    refine Bool.eq_false_iff.mpr fun letter => ?_
    change c.isAlphanum = true at letter
    delta Char.isAlphanum Char.isAlpha Char.isUpper Char.isLower Char.isDigit at letter
    simp only [Bool.or_eq_true, Bool.and_eq_true, decide_eq_true_eq, ge_iff_le, UInt32.le_iff_toNat_le] at letter
    have range : (65 ≤ c.toNat ∧ c.toNat ≤ 90 ∨ 97 ≤ c.toNat ∧ c.toNat ≤ 122) ∨ 48 ≤ c.toNat ∧ c.toNat ≤ 57 := letter
    simp only [endsValue, isWhitespace, Bool.or_eq_true, Bool.and_eq_true, decide_eq_true_eq, contains_eq_mem,
      mem_cons, not_mem_nil, or_false] at ends
    rcases ends with blank | rfl | rfl | rfl | rfl | rfl
    · omega
    all_goals exact absurd range (by decide)
  marks c inside := by
    have none : ['=', ':', '?', Char.ofNat 34, Char.ofNat 39].all (fun c => !c.isAlphanum) = true := by decide
    simpa [ascii] using all_eq_true.mp none c inside

theorem secret_of_all {value : List Char} (some : value ≠ [])
    (each : value.all (fun c => !endsValue c && c != Char.ofNat 34 && c != Char.ofNat 39) = true) : Secret value :=
  ⟨some, fun c here => by simpa [and_assoc] using all_eq_true.mp each c here⟩

end TallyOwl.Scrub
