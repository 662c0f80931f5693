import Mathlib.Data.List.Induction
import Mathlib.Tactic.IntervalCases
import TensorIR.Proofs.Statements

/-! # A splicer in use

A splicer is told to emit, to splice, to set aside and to put back, in any order in which what was
set aside last is put back first. All that is emitted comes out again, once and in order, or still
waits at the end (`Splicer.run_conserves_emitted`).

**Key idea**: a statement may be emitted more than once, so it is the calls that are told apart, by
their numbers. Which of them have left something waiting can be read off the calls (`Splicer.Waits`):
those that no splice has reached, if nothing saved since is still set aside. These are always the
ones whose statements are pending (`Splicer.Nested.pending_run_take`), and so what a splice takes.
-/

namespace TensorIR

namespace Splicer

/-- What a splicer can be told to do. The calls of a splicer are numbered from 0. -/
inductive Call where
  | emit (s : Stmt)
  | splice (s : Stmt)
  | save
  /-- Restores what the call with number `k` has saved. -/
  | restore (k : Nat)

/-- What a call gives back. -/
inductive Reply where
  | done
  | spliced (out : Transformed Stmt)
  | saved (ss : List Stmt)

/-- A splicer, and what its calls have given back so far. -/
structure Use where
  splicer : Splicer := {}
  replies : List Reply := []

namespace Use

variable (u : Use)

/-- The statements that the call with number `k` has saved. -/
def savedBy (k : Nat) : List Stmt :=
  match u.replies[k]? with
  | some (.saved ss) => ss
  | _ => []

/-- What a call gives back. -/
def reply : Call → Reply
  | .emit _ | .restore _ => .done
  | .splice s => .spliced (u.splicer.splice s).1
  | .save => .saved u.splicer.save.1

/-- What a call makes of the splicer. -/
def next : Call → Splicer
  | .emit s => u.splicer.emit s
  | .splice s => (u.splicer.splice s).2
  | .save => u.splicer.save.2
  | .restore k => u.splicer.restore (u.savedBy k)

def call (c : Call) : Use := ⟨u.next c, u.replies ++ [u.reply c]⟩

end Use

/-- Makes calls one after another. At first nothing is pending. -/
def run (calls : List Call) : Use := calls.foldl Use.call {}

/-- Saves and restores are properly nested, and each saved list is restored once. -/
structure Nested (calls : List Call) : Prop where
  saved : ∀ {j k : Nat}, calls[j]? = some (.restore k) → k < j ∧ calls[k]? = some .save
  restored : ∀ {k : Nat}, calls[k]? = some .save → ∃ j : Nat, calls[j]? = some (.restore k)
  once : ∀ {i j k : Nat}, calls[i]? = some (.restore k) → calls[j]? = some (.restore k) → i = j
  /-- What is saved between a save and its restore is restored between them. -/
  within : ∀ {i j k l : Nat}, calls[i]? = some (.restore k) → calls[j]? = some (.restore l) →
    k < l → l < i → j < i

/-! ### Where a statement goes -/

instance : (c : Option Call) → Decidable (c = some .save)
  | some .save => isTrue rfl
  | none | some (.emit _) | some (.splice _) | some (.restore _) => isFalse nofun

instance (k : Nat) : (c : Option Call) → Decidable (c = some (.restore k))
  | some (.restore l) => decidable_of_iff (l = k) (by simp)
  | none | some (.emit _) | some (.splice _) | some .save => isFalse nofun

instance : (c : Option Call) → Decidable (∃ s, c = some (.splice s))
  | some (.splice s) => isTrue ⟨s, rfl⟩
  | none | some (.emit _) | some .save | some (.restore _) => isFalse nofun

section

variable (calls : List Call)

/-- All that is saved between the calls `i` and `n` is restored between them. -/
def Settled (i n : Nat) : Prop :=
  ∀ k < n, i < k → calls[k]? = some .save → ∃ j < n, k < j ∧ calls[j]? = some (.restore k)

/-- The call `j` is a splice, later than the call `i`, and nothing that was saved between them is
still set aside. -/
def Reaches (i j : Nat) : Prop :=
  i < j ∧ (∃ s, calls[j]? = some (.splice s)) ∧ Settled calls i j

instance (i n : Nat) : Decidable (Settled calls i n) :=
  inferInstanceAs (Decidable (∀ k < n, i < k → calls[k]? = some .save →
    ∃ j < n, k < j ∧ calls[j]? = some (.restore k)))

instance (i j : Nat) : Decidable (Reaches calls i j) :=
  inferInstanceAs (Decidable (_ ∧ _ ∧ _))

/-- The place of what the call `i` emits: the first splice that reaches it, if any does. -/
def place (i : Nat) : Option Nat :=
  (List.range calls.length).find? fun j => Reaches calls i j

/-- What the call `i` emits is pending before the call `n`. -/
def Waits (i n : Nat) : Prop := Settled calls i n ∧ ∀ j < n, ¬ Reaches calls i j

instance (i n : Nat) : Decidable (Waits calls i n) :=
  inferInstanceAs (Decidable (_ ∧ _))

/-- The statement that the call `i` emits. -/
def emitted? (i : Nat) : Option Stmt :=
  match calls[i]? with
  | some (.emit s) => some s
  | _ => none

/-- The statements that are emitted before the call `n`, by calls that satisfy `p`, in order. -/
def emitted (n : Nat) (p : Nat → Prop) [DecidablePred p] : List Stmt :=
  (List.range n).filterMap fun i => if p i then emitted? calls i else none

/-- The emitted statements with a place, in the order in which they are emitted. -/
def placed (w : Option Nat) : List Stmt := emitted calls calls.length (place calls · = w)

end

variable {calls : List Call} {p q r : Nat → Prop} [DecidablePred p] [DecidablePred q]
  [DecidablePred r] {i j k n : Nat}

theorem emitted_congr (h : ∀ i < n, p i ↔ q i) : emitted calls n p = emitted calls n q := by
  refine List.filterMap_congr fun i hi => ?_
  simp only [h i (List.mem_range.1 hi)]

theorem emitted_eq_nil (h : ∀ i < n, ¬ p i) : emitted calls n p = [] := by
  refine List.filterMap_eq_nil_iff.2 fun i hi => ?_
  rw [if_neg (h i (List.mem_range.1 hi))]

theorem emitted_succ : emitted calls (n + 1) p =
    emitted calls n p ++ (if p n then emitted? calls n else none).toList := by
  unfold emitted
  rw [List.range_succ, List.filterMap_append]
  congr 1

/-- Calls before `k`, and calls from `k` on. -/
theorem emitted_split (hkn : k ≤ n) (hlow : ∀ i < k, (r i ↔ p i) ∧ ¬ q i)
    (hhigh : ∀ i < n, k ≤ i → (r i ↔ q i)) :
    emitted calls n r = emitted calls k p ++ emitted calls n q := by
  obtain ⟨m, rfl⟩ := Nat.exists_eq_add_of_le hkn
  have hq : emitted calls k q = [] := emitted_eq_nil fun i hi => (hlow i hi).2
  have hr : emitted calls k r = emitted calls k p := emitted_congr fun i hi => (hlow i hi).1
  unfold emitted at hq hr ⊢
  rw [List.range_add, List.filterMap_append, List.filterMap_append, hq, hr, List.nil_append]
  congr 1
  refine List.filterMap_congr fun i hi => ?_
  obtain ⟨m', hm', rfl⟩ := List.mem_map.1 hi
  have hm := List.mem_range.1 hm'
  simp only [hhigh (k + m') (by omega) (by omega)]

/-- Calls that satisfy one of two conditions, but never both. -/
theorem perm_emitted_or (hpq : ∀ i, p i → ¬ q i) :
    (emitted calls n fun i => p i ∨ q i).Perm (emitted calls n p ++ emitted calls n q) := by
  induction n with
  | zero => exact .nil
  | succ n ih =>
    rw [emitted_succ, emitted_succ, emitted_succ]
    generalize emitted? calls n = s?
    by_cases hp : p n
    · rw [if_pos hp, if_pos (.inl hp), if_neg (hpq n hp), Option.toList_none, List.append_nil]
      have hswap : ((emitted calls n p ++ emitted calls n q) ++ s?.toList).Perm
          ((emitted calls n p ++ s?.toList) ++ emitted calls n q) := by
        rw [List.append_assoc, List.append_assoc]
        exact List.perm_append_comm.append_left _
      exact (ih.append_right _).trans hswap
    · have hor : (if p n ∨ q n then s? else none) = if q n then s? else none := by simp [hp]
      rw [hor, if_neg hp, Option.toList_none, List.append_nil, ← List.append_assoc]
      exact ih.append_right _

/-! ### What is pending -/

theorem run_take_succ {c : Call} (h : calls[n]? = some c) :
    run (calls.take (n + 1)) = (run (calls.take n)).call c := by
  rw [List.take_add_one, h]
  exact List.foldl_concat _ _ _ _

theorem length_replies_run (calls : List Call) : (run calls).replies.length = calls.length := by
  induction calls using List.reverseRecOn with
  | nil => rfl
  | append_singleton calls c ih =>
    unfold run at ih ⊢
    rw [List.foldl_concat, List.length_append, ← ih]
    exact List.length_append

/-- What a call gives back depends on the calls before it. -/
theorem replies_run {c : Call} (h : calls[n]? = some c) :
    (run calls).replies[n]? = some ((run (calls.take n)).reply c) := by
  induction calls using List.reverseRecOn with
  | nil => cases h
  | append_singleton calls c' ih =>
    have hrun : run (calls ++ [c']) = (run calls).call c' := List.foldl_concat _ _ _ _
    rw [hrun]
    show ((run calls).replies ++ [(run calls).reply c'])[n]? = _
    rcases Nat.lt_or_ge n calls.length with hn | hn
    · rw [List.getElem?_append_left hn] at h
      rw [List.take_append_of_le_length (Nat.le_of_lt hn),
        List.getElem?_append_left (by rw [length_replies_run]; exact hn)]
      exact ih h
    · have hlt := (List.getElem?_eq_some_iff.1 h).1
      rw [List.length_append, List.length_singleton] at hlt
      obtain rfl : n = calls.length := by omega
      rw [List.getElem?_concat_length] at h
      cases h
      rw [List.take_left, ← length_replies_run calls, List.getElem?_concat_length]

theorem savedBy_run_take (h : calls[k]? = some .save) (hk : k < n) :
    (run (calls.take n)).savedBy k = (run (calls.take k)).splicer.pending := by
  have hreply : (run (calls.take n)).replies[k]? =
      some ((run ((calls.take n).take k)).reply .save) :=
    replies_run (by rw [List.getElem?_take_of_lt hk, h])
  rw [List.take_take, Nat.min_eq_left (Nat.le_of_lt hk)] at hreply
  unfold Use.savedBy
  rw [hreply]
  rfl

/-! ### Which calls have left something waiting -/

theorem settled_succ (hin : i < n) :
    Settled calls i (n + 1) ↔ calls[n]? ≠ some .save ∧ ∀ k < n, i < k → calls[k]? = some .save →
      (∃ j < n, k < j ∧ calls[j]? = some (.restore k)) ∨ calls[n]? = some (.restore k) := by
  constructor
  · intro h
    refine ⟨fun hsave => ?_, fun k hk hik hsave => ?_⟩
    · obtain ⟨j, hj, hnj, _⟩ := h n (Nat.lt_succ_self n) hin hsave
      omega
    · obtain ⟨j, hj, hkj, hrestore⟩ := h k (by omega) hik hsave
      rcases Nat.lt_succ_iff_lt_or_eq.1 hj with hjn | rfl
      · exact .inl ⟨j, hjn, hkj, hrestore⟩
      · exact .inr hrestore
  · rintro ⟨hn, h⟩ k hk hik hsave
    have hkn : k ≠ n := by
      rintro rfl
      exact hn hsave
    rcases h k (by omega) hik hsave with ⟨j, hj, hkj, hrestore⟩ | hrestore
    · exact ⟨j, by omega, hkj, hrestore⟩
    · exact ⟨n, by omega, by omega, hrestore⟩

/-- A call that neither saves nor restores unsettles nothing and settles nothing. -/
theorem settled_succ_iff (hin : i < n) (hsave : calls[n]? ≠ some .save)
    (hrestore : ∀ k, calls[n]? ≠ some (.restore k)) :
    Settled calls i (n + 1) ↔ Settled calls i n := by
  rw [settled_succ hin]
  refine ⟨fun h k hk hik hk' => ?_, fun h => ⟨hsave, fun k hk hik hk' => .inl (h k hk hik hk')⟩⟩
  exact (h.2 k hk hik hk').resolve_right (hrestore k)

theorem Reaches.lt_length (h : Reaches calls i j) : j < calls.length := by
  obtain ⟨_, ⟨s, hs⟩, _⟩ := h
  exact (List.getElem?_eq_some_iff.1 hs).1

theorem not_reaches {c : Call} (hc : calls[j]? = some c) (h : ∀ s, c ≠ .splice s) :
    ¬ Reaches calls i j := by
  rintro ⟨_, ⟨s, hs⟩, _⟩
  exact h s (Option.some.inj (hc.symm.trans hs))

theorem waits_self : Waits calls n (n + 1) := by
  refine ⟨fun k hk hnk => ?_, fun j hj hreach => ?_⟩
  · omega
  · have := hreach.1
    omega

/-- The statements that wait before the call `n`. -/
def waiting (calls : List Call) (n : Nat) : List Stmt := emitted calls n (Waits calls · n)

theorem waiting_succ : waiting calls (n + 1) =
    emitted calls n (Waits calls · (n + 1)) ++ (emitted? calls n).toList := by
  rw [waiting, emitted_succ, if_pos waits_self]

theorem waiting_emit {s : Stmt} (h : calls[n]? = some (.emit s)) :
    waiting calls (n + 1) = waiting calls n ++ [s] := by
  have hemitted : emitted? calls n = some s := by rw [emitted?, h]
  have hwaits : ∀ i < n, Waits calls i (n + 1) ↔ Waits calls i n := by
    intro i hi
    have hsettled : Settled calls i (n + 1) ↔ Settled calls i n :=
      settled_succ_iff hi (by simp [h]) (by simp [h])
    unfold Waits
    rw [hsettled, Nat.forall_lt_succ_right]
    exact and_congr_right fun _ => and_iff_left (not_reaches h nofun)
  rw [waiting_succ, hemitted, emitted_congr hwaits]
  rfl

/-- A splice reaches all that waits. -/
theorem waiting_splice {s : Stmt} (h : calls[n]? = some (.splice s)) :
    waiting calls (n + 1) = [] := by
  have hemitted : emitted? calls n = none := by rw [emitted?, h]
  rw [waiting_succ, hemitted, emitted_eq_nil]
  · rfl
  · rintro i hi ⟨hsettled, hreach⟩
    refine hreach n (Nat.lt_succ_self n) ⟨hi, ⟨s, h⟩, ?_⟩
    exact (settled_succ_iff hi (by simp [h]) (by simp [h])).1 hsettled

/-- A save sets aside all that waits. -/
theorem waiting_save (h : calls[n]? = some .save) : waiting calls (n + 1) = [] := by
  have hemitted : emitted? calls n = none := by rw [emitted?, h]
  rw [waiting_succ, hemitted, emitted_eq_nil]
  · rfl
  · rintro i hi ⟨hsettled, _⟩
    exact ((settled_succ hi).1 hsettled).1 h

namespace Nested

variable (hnested : Nested calls)

include hnested

/-- Before a list is restored, all that was saved after it has been restored. -/
theorem settled_of_le (h : calls[n]? = some (.restore k)) (hki : k ≤ i) : Settled calls i n := by
  intro l hl hil hsave
  obtain ⟨j, hj⟩ := hnested.restored hsave
  have hjn : j < n := hnested.within h hj (by omega) hl
  exact ⟨j, hjn, (hnested.saved hj).1, hj⟩

/-- While a list is set aside, nothing from before it is settled. -/
theorem not_settled (h : calls[n]? = some (.restore k)) (hik : i < k) (hkj : k < j) (hjn : j ≤ n) :
    ¬ Settled calls i j := by
  intro hsettled
  obtain ⟨j', hj', _, hrestore⟩ := hsettled k hkj hik (hnested.saved h).2
  have := hnested.once h hrestore
  omega

/-- Once a list is restored, all is as it was before the list was saved. -/
theorem settled_succ_iff_of_lt (h : calls[n]? = some (.restore k)) (hik : i < k) :
    Settled calls i (n + 1) ↔ Settled calls i k := by
  have hkn := (hnested.saved h).1
  rw [settled_succ (by omega)]
  constructor
  · rintro ⟨_, hsettled⟩ l hl hil hsave
    rcases hsettled l (by omega) hil hsave with ⟨j, hjn, hlj, hj⟩ | hn
    · -- what is saved before `k` is not restored while `k` is set aside
      have hjk : j ≠ k := by
        rintro rfl
        simp [(hnested.saved h).2] at hj
      have hkj : ¬ k < j := fun hkj => absurd (hnested.within hj h hl hkj) (by omega)
      exact ⟨j, by omega, hlj, hj⟩
    · rw [h] at hn
      cases hn
      omega
  · intro hsettled
    refine ⟨by simp [h], fun l hl hil hsave => ?_⟩
    rcases Nat.lt_trichotomy l k with hlk | rfl | hkl
    · obtain ⟨j, hj, hlj, hrestore⟩ := hsettled l hlk hil hsave
      exact .inl ⟨j, by omega, hlj, hrestore⟩
    · exact .inr h
    · exact .inl (hnested.settled_of_le h (Nat.le_refl k) l hl hkl hsave)

/-- A restore brings back what waited when the list was saved, in front of what waits now. -/
theorem waiting_restore (h : calls[n]? = some (.restore k)) :
    waiting calls (n + 1) = waiting calls k ++ waiting calls n := by
  obtain ⟨hkn, hsave⟩ := hnested.saved h
  have hemitted : emitted? calls n = none := by rw [emitted?, h]
  rw [waiting_succ, hemitted, Option.toList_none, List.append_nil]
  refine emitted_split (Nat.le_of_lt hkn) (fun i hik => ⟨?_, fun hwaits => ?_⟩) fun i hin hki => ?_
  · -- no splice between the save and its restore reaches `i`
    unfold Waits
    rw [hnested.settled_succ_iff_of_lt h hik]
    refine and_congr_right fun _ => ⟨fun hall j hj => hall j (by omega), fun hall j hj => ?_⟩
    rcases Nat.lt_trichotomy j k with hjk | rfl | hkj
    · exact hall j hjk
    · exact not_reaches hsave nofun
    · exact fun hreach => hnested.not_settled h hik hkj (by omega) hreach.2.2
  · exact hnested.not_settled h hik hkn (Nat.le_refl n) hwaits.1
  · have hsettled : Settled calls i n := hnested.settled_of_le h hki
    have hsettled' : Settled calls i (n + 1) :=
      (settled_succ hin).2 ⟨by simp [h], fun l hl hil hs => .inl (hsettled l hl hil hs)⟩
    unfold Waits
    rw [Nat.forall_lt_succ_right]
    exact ⟨fun hw => ⟨hsettled, hw.2.1⟩, fun hw => ⟨hsettled', hw.2, not_reaches h nofun⟩⟩

/-- Before each call, what waits is pending. -/
theorem pending_run_take (hn : n ≤ calls.length) :
    (run (calls.take n)).splicer.pending = waiting calls n := by
  induction n using Nat.strongRecOn with
  | ind n ih =>
    cases n with
    | zero => rfl
    | succ n =>
      have hc : calls[n]? = some calls[n] := List.getElem?_eq_getElem hn
      have hpending := ih n (Nat.lt_succ_self n) (by omega)
      rw [run_take_succ hc]
      generalize calls[n] = c at hc
      cases c with
      | emit s =>
        rw [waiting_emit hc, ← hpending]
        rfl
      | splice s =>
        rw [waiting_splice hc]
        exact congrArg (·.2.pending) (splice_eq _ s)
      | save =>
        rw [waiting_save hc]
        rfl
      | restore k =>
        obtain ⟨hk, hsave⟩ := hnested.saved hc
        rw [hnested.waiting_restore hc, ← hpending, ← ih k (by omega) (by omega),
          ← savedBy_run_take hsave hk]
        rfl

end Nested

/-! ### Where it all ends up -/

theorem place_eq_some_iff :
    place calls i = some j ↔ Reaches calls i j ∧ ∀ j' < j, ¬ Reaches calls i j' := by
  unfold place
  rw [List.find?_range_eq_some]
  simp only [decide_eq_true_eq, List.mem_range, Bool.not_eq_true', decide_eq_false_iff_not]
  exact and_congr_right fun hreach => and_iff_right hreach.lt_length

theorem place_eq_none_iff :
    place calls i = none ↔ ∀ j < calls.length, ¬ Reaches calls i j := by
  unfold place
  rw [List.find?_range_eq_none]
  simp only [Bool.not_eq_true', decide_eq_false_iff_not]

/-- A splice takes what waits. -/
theorem placed_some_eq_waiting {s : Stmt} (h : calls[j]? = some (.splice s)) :
    placed calls (some j) = waiting calls j := by
  have hj : j < calls.length := (List.getElem?_eq_some_iff.1 h).1
  have hlow : ∀ i < j, (place calls i = some j ↔ Waits calls i j) ∧ ¬ False := by
    intro i hij
    rw [place_eq_some_iff]
    exact ⟨⟨fun hi => ⟨hi.1.2.2, hi.2⟩, fun hi => ⟨⟨hij, ⟨s, h⟩, hi.1⟩, hi.2⟩⟩, not_false⟩
  have hhigh : ∀ i < calls.length, j ≤ i → (place calls i = some j ↔ False) := by
    intro i _ hji
    refine iff_false_intro fun hplace => ?_
    have := (place_eq_some_iff.1 hplace).1.1
    omega
  unfold placed
  rw [emitted_split (Nat.le_of_lt hj) hlow hhigh, emitted_eq_nil fun _ _ => not_false,
    List.append_nil]
  rfl

/-- In the end all is settled, and what is not taken waits. -/
theorem Nested.placed_none_eq_waiting (hnested : Nested calls) :
    placed calls none = waiting calls calls.length := by
  refine emitted_congr fun i _ => ?_
  rw [place_eq_none_iff]
  refine ⟨fun hi => ⟨fun k _ _ hsave => ?_, hi⟩, And.right⟩
  obtain ⟨j, hj⟩ := hnested.restored hsave
  exact ⟨j, (List.getElem?_eq_some_iff.1 hj).1, (hnested.saved hj).1, hj⟩

theorem perm_placed_lt (m : Nat) :
    (emitted calls calls.length fun i => ∃ j < m, place calls i = some j).Perm
      ((List.range m).flatMap fun j => placed calls (some j)) := by
  induction m with
  | zero =>
    rw [emitted_eq_nil (by simp)]
    exact .nil
  | succ m ih =>
    have hsplit : ∀ i < calls.length, (∃ j < m + 1, place calls i = some j) ↔
        (∃ j < m, place calls i = some j) ∨ place calls i = some m :=
      fun i _ => Nat.exists_lt_succ_right
    rw [List.range_succ, List.flatMap_append, List.flatMap_singleton, emitted_congr hsplit]
    refine (perm_emitted_or ?_).trans (ih.append_right _)
    rintro i ⟨j, hj, hi⟩ hi'
    rw [hi] at hi'
    cases hi'
    omega

/-- Every statement that is emitted has one place. -/
theorem perm_placed (calls : List Call) :
    ((List.range calls.length).flatMap (fun j => placed calls (some j)) ++ placed calls none).Perm
      (emitted calls calls.length fun _ => True) := by
  have hnone : ∀ i, (∃ j < calls.length, place calls i = some j) → ¬ place calls i = none := by
    rintro i ⟨j, _, hi⟩ hi'
    rw [hi] at hi'
    cases hi'
  have hall : ∀ i < calls.length,
      ((∃ j < calls.length, place calls i = some j) ∨ place calls i = none ↔ True) := by
    intro i _
    refine iff_true_intro ?_
    cases hi : place calls i with
    | none => exact .inr rfl
    | some j => exact .inl ⟨j, (place_eq_some_iff.1 hi).1.lt_length, rfl⟩
  rw [← emitted_congr hall]
  exact ((perm_placed_lt calls.length).symm.append_right _).trans (perm_emitted_or hnone).symm

/-- Nothing is lost and nothing doubled. What a call emits has one place: the first splice that
reaches it, or the end if none does. A splice gives back, in one block, all that has its place
there, in the order in which it is emitted, and then its own statement; in the end all that has no
splice is pending, in that order. A splice only takes what is emitted before it, and between a save
and its restore none takes what is emitted before the save. -/
theorem run_conserves_emitted (hnested : Nested calls) :
    ((List.range calls.length).flatMap (fun j => placed calls (some j)) ++ placed calls none).Perm
      (emitted calls calls.length fun _ => True) ∧
    (∀ (j : Nat) (s : Stmt), calls[j]? = some (.splice s) → (run calls).replies[j]? =
      some (.spliced
        ⟨s.after (placed calls (some j)), !(placed calls (some j)).isEmpty⟩)) ∧
    (run calls).splicer.pending = placed calls none ∧
    (∀ i j, place calls i = some j → i < j ∧ ∃ s, calls[j]? = some (.splice s)) ∧
    ∀ i j k l : Nat, calls[l]? = some (.restore k) → i < k → k < j → j < l →
      place calls i ≠ some j := by
  refine ⟨perm_placed calls, fun j s hj => ?_, ?_, fun i j hplace => ?_,
    fun i j k l hl hik hkj hjl hplace => ?_⟩
  · have hlength : j < calls.length := (List.getElem?_eq_some_iff.1 hj).1
    have hpending := hnested.pending_run_take (Nat.le_of_lt hlength)
    rw [replies_run hj, placed_some_eq_waiting hj, ← hpending]
    exact congrArg (some <| Reply.spliced ·.1) (splice_eq _ s)
  · have hpending := hnested.pending_run_take (Nat.le_refl calls.length)
    rw [List.take_length] at hpending
    rw [hpending, hnested.placed_none_eq_waiting]
  · obtain ⟨hij, hsplice, _⟩ := (place_eq_some_iff.1 hplace).1
    exact ⟨hij, hsplice⟩
  · have hsettled := (place_eq_some_iff.1 hplace).1.2.2
    exact hnested.not_settled hl hik hkj (Nat.le_of_lt hjl) hsettled

/-- The statement of the call with the given number. -/
def numbered (n : Nat) : Stmt := .varDecl ⟨n, "x", .float⟩

/-- Two saves, one within the other. When the first list is restored, something still waits. -/
def twoLevels : List Call :=
  [.emit (numbered 0), .save, .emit (numbered 2), .save, .emit (numbered 4), .splice (numbered 5),
    .emit (numbered 6), .restore 3, .restore 1, .splice (numbered 9), .emit (numbered 10)]

theorem run_conserves_emitted_twoLevels :
    Nested twoLevels ∧
    (run twoLevels).replies[5]? =
      some (.spliced (.replace (.block [numbered 4, numbered 5]))) ∧
    (run twoLevels).replies[9]? =
      some (.spliced (.replace (.block [numbered 0, numbered 2, numbered 6, numbered 9]))) ∧
    (run twoLevels).splicer.pending = [numbered 10] ∧ place twoLevels 0 ≠ some 5 := by
  have hsave : ∀ k : Nat, twoLevels[k]? = some .save → k = 1 ∨ k = 3 := by
    intro k hk
    have hlt : k < 11 := (List.getElem?_eq_some_iff.1 hk).1
    interval_cases k <;> simp_all [twoLevels]
  have hrestore : ∀ j k : Nat, twoLevels[j]? = some (.restore k) →
      j = 7 ∧ k = 3 ∨ j = 8 ∧ k = 1 := by
    intro j k hj
    have hlt : j < 11 := (List.getElem?_eq_some_iff.1 hj).1
    interval_cases j <;> simp_all [twoLevels]
  have hnested : Nested twoLevels := by
    constructor
    · intro j k hj
      rcases hrestore j k hj with ⟨rfl, rfl⟩ | ⟨rfl, rfl⟩
      · exact ⟨by decide, rfl⟩
      · exact ⟨by decide, rfl⟩
    · intro k hk
      rcases hsave k hk with rfl | rfl
      · exact ⟨8, rfl⟩
      · exact ⟨7, rfl⟩
    · intro i j k hi hj
      have := hrestore i k hi
      have := hrestore j k hj
      omega
    · intro i j k l hi hj
      have := hrestore i k hi
      have := hrestore j l hj
      omega
  obtain ⟨_, hspliced, hpending, _, hapart⟩ := run_conserves_emitted hnested
  refine ⟨hnested, ?_, ?_, hpending, ?_⟩
  · exact hspliced 5 _ rfl
  · exact hspliced 9 _ rfl
  · exact hapart 0 5 1 8 rfl (by decide) (by decide) (by decide)

end Splicer

end TensorIR
