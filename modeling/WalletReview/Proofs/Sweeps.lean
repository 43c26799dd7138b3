import WalletReview.Proofs.Nesting
import WalletReview.Proofs.Rounds

/-! What a provider is asked while a screen is loaded. The rounds of the loop ask about places in
the direction of travel, each one further on than the one before, and stop when they have passed the
last; only about the place where they stop may there be a second question. -/
namespace WalletReview

variable {μ σ β : Type}

/-- The place that a question wants a page of, as a path from the list of items, and the page. -/
def Query.page? : Query → Option (List UInt8 × UInt8)
  | item index page => some ([index], page)
  | child path c page => some (path ++ [c], page)
  | _ => none

def Query.place? (q : Query) : Option (List UInt8) := q.page?.map (·.1)

/-- The question of `x` was for a page beyond the last, and that of `y` is for the last page. -/
def Requeries (x y : Exchange) : Prop :=
  ∃ place page pages last, x.query.page? = some (place, page) ∧
    x.answer = .count (.ok pages) ∧ pages ≤ page ∧ y.query.page? = some (place, last) ∧
    last.toNat + 1 = pages.toNat

/-- The questions of a load, the latest first, ask for pages sparingly, where there are `count`
places. -/
structure Frugal (count : Nat) (asked : List Exchange) : Prop where
  total : (asked.filterMap (·.query.place?)).length ≤ count + 1
  twice (place : List UInt8) : (asked.filterMap (·.query.place?)).count place ≤ 2
  /-- A second question about a place follows the first at once, for the last page, and ends it. -/
  again {place : List UInt8} {later between earlier : List Exchange} {x y : Exchange} :
    asked = later ++ y :: (between ++ x :: earlier) → x.query.place? = some place →
    y.query.place? = some place → later = [] ∧ between = [] ∧ Requeries x y

/-- Questions, the latest first, that ask for pages of places of falling rank, the first one not
above `n`. There may be a second question about the last of the places. -/
inductive Sweep (rank : List UInt8 → Nat) : Nat → List Exchange → Prop
  | idle {n : Nat} {asked : List Exchange} : (∀ x ∈ asked, x.query.place? = none) →
    Sweep rank n asked
  | pass {n m : Nat} {x : Exchange} {place : List UInt8} {later : List Exchange} :
    x.query.place? = some place → m < rank place → rank place ≤ n → Sweep rank m later →
    Sweep rank n (later ++ [x])
  | again {n : Nat} {x y : Exchange} {place : List UInt8} : x.query.place? = some place →
    0 < rank place → rank place ≤ n → Requeries x y → Sweep rank n [y, x]

theorem Requeries.place?_eq {x y : Exchange} (h : Requeries x y) :
    y.query.place? = x.query.place? := by
  obtain ⟨place, page, pages, last, hx, -, -, hy, -⟩ := h
  rw [Query.place?, Query.place?, hx, hy]
  rfl

namespace Sweep

variable {rank : List UInt8 → Nat} {n : Nat} {asked : List Exchange} {x y : Exchange}
  {place : List UInt8}

theorem single (hx : x.query.place? = some place) (hpos : 0 < rank place) (hle : rank place ≤ n) :
    Sweep rank n [x] :=
  have hnone : Sweep rank 0 [] := .idle fun _ h => by simp at h
  .pass hx hpos hle hnone

/-- No place that is asked about has a rank above the first. -/
theorem rank_le (h : Sweep rank n asked) (hx : x ∈ asked) (hplace : x.query.place? = some place) :
    rank place ≤ n := by
  induction h with
  | idle hnone => cases (hnone x hx).symm.trans hplace
  | pass hfirst hlt hle _ ih =>
    rcases List.mem_append.1 hx with hlater | hself
    · have := ih hlater
      omega
    · cases List.mem_singleton.1 hself
      cases hfirst.symm.trans hplace
      exact hle
  | again hfirst _ hle hagain =>
    rcases List.mem_cons.1 hx with rfl | hself
    · cases (hagain.place?_eq.trans hfirst).symm.trans hplace
      exact hle
    · cases List.mem_singleton.1 hself
      cases hfirst.symm.trans hplace
      exact hle

theorem filterMap_eq_nil (hnone : ∀ x ∈ asked, x.query.place? = none) :
    asked.filterMap (·.query.place?) = [] :=
  List.filterMap_eq_nil_iff.2 hnone

theorem total (h : Sweep rank n asked) : (asked.filterMap (·.query.place?)).length ≤ n + 1 := by
  induction h with
  | idle hnone => simp [filterMap_eq_nil hnone]
  | pass hfirst hlt hle _ ih =>
    rw [List.filterMap_append, List.length_append]
    simp only [List.filterMap_cons, hfirst, List.filterMap_nil, List.length_singleton]
    omega
  | again hfirst hpos hle hagain =>
    simp only [List.filterMap_cons, hagain.place?_eq, hfirst, List.filterMap_nil, List.length_cons,
      List.length_nil]
    omega

theorem twice (h : Sweep rank n asked) (place : List UInt8) :
    (asked.filterMap (·.query.place?)).count place ≤ 2 := by
  induction h with
  | idle hnone => simp [filterMap_eq_nil hnone]
  | @pass n m x first later hfirst hlt hle hlater ih =>
    rw [List.filterMap_append, List.count_append]
    simp only [List.filterMap_cons, hfirst, List.filterMap_nil]
    by_cases hplace : first = place
    · -- the places further on have lower ranks
      have hnot : place ∉ later.filterMap (·.query.place?) := by
        intro hmem
        obtain ⟨z, hz, hzplace⟩ := List.mem_filterMap.1 hmem
        have := hlater.rank_le hz hzplace
        rw [hplace] at hlt
        omega
      rw [List.count_eq_zero_of_not_mem hnot, hplace, List.count_singleton_self]
      omega
    · rw [List.count_singleton]
      simpa [hplace] using ih
  | again hfirst _ _ hagain =>
    simp only [List.filterMap_cons, hagain.place?_eq, hfirst, List.filterMap_nil]
    exact List.count_le_length

theorem requeries (h : Sweep rank n asked) {later between earlier : List Exchange}
    (hasked : asked = later ++ y :: (between ++ x :: earlier)) (hx : x.query.place? = some place)
    (hy : y.query.place? = some place) : later = [] ∧ between = [] ∧ Requeries x y := by
  induction h generalizing earlier with
  | idle hnone => cases (hnone x (by simp [hasked])).symm.trans hx
  | @pass n m first firstPlace onward hfirst hlt _ hlater ih =>
    rcases List.eq_nil_or_concat earlier with rfl | ⟨rest, last, rfl⟩
    · -- the first place is not asked about later on, where ranks are lower
      have hsplit : later ++ y :: between ++ [x] = onward ++ [first] := by simpa using hasked.symm
      obtain ⟨hinit, hlast⟩ := List.append_inj' hsplit rfl
      cases List.singleton_inj.1 hlast
      cases hfirst.symm.trans hx
      have hle := hlater.rank_le (by simp [← hinit]) hy
      omega
    · have hsplit : later ++ y :: (between ++ x :: rest) ++ [last] = onward ++ [first] := by
        simpa using hasked.symm
      exact ih (List.append_inj' hsplit rfl).1.symm
  | @again n first second _ _ _ _ hagain =>
    have hlength := congrArg List.length hasked
    simp only [List.length_append, List.length_cons, List.length_nil] at hlength
    obtain rfl : later = [] := List.length_eq_zero_iff.1 (by omega)
    obtain rfl : between = [] := List.length_eq_zero_iff.1 (by omega)
    simp only [List.nil_append, List.cons.injEq] at hasked
    obtain ⟨rfl, rfl, -⟩ := hasked
    exact ⟨rfl, rfl, hagain⟩

theorem frugal (h : Sweep rank n asked) : Frugal n asked :=
  ⟨h.total, h.twice, h.requeries⟩

end Sweep

/-- From one sitting to the other the provider was asked questions, the latest first, that satisfy
`P`. -/
def Sitting.Asked (P : List Exchange → Prop) (t t' : Sitting μ (Recorded σ)) : Prop :=
  ∃ asked, t'.content.exchanges = asked ++ t.content.exchanges ∧ P asked

namespace Operation

open Sitting (Asked)

/-- What comes of a round of a loop with `n` ranks left: the loop goes on from a place that was
found empty, with `inv` for fewer ranks, or it is over, with an answer that satisfies `done`. -/
def Proceeds (rank : List UInt8 → Nat) (inv : Nat → Sitting μ (Recorded σ) → Prop)
    (done : β → Prop) (n : Nat) (t : Sitting μ (Recorded σ)) :
    Except Error (Option β) → Sitting μ (Recorded σ) → Prop
  | .ok none, t' => ∃ m x place, inv m t' ∧ t'.content.exchanges = x :: t.content.exchanges ∧
      x.query.place? = some place ∧ m < rank place ∧ rank place ≤ n
  | .ok (some b), t' => done b ∧ Asked (Sweep rank n) t t'
  | .error _, t' => Asked (Sweep rank n) t t'

/-- More rounds than ranks are left are enough for a loop, and its questions sweep the places. -/
theorem returns_loop {rank : List UInt8 → Nat} {inv : Nat → Sitting μ (Recorded σ) → Prop}
    {done : β → Prop} {round : Operation μ (Recorded σ) (Option β)}
    (hround : ∀ n t, inv n t → round.Ensures t (Proceeds rank inv done n t)) {n rounds : Nat}
    {t : Sitting μ (Recorded σ)} (hinv : inv n t) (hrounds : n < rounds) :
    Returns (fun after => loop round after rounds) t fun r t' =>
      (∀ b, r = .ok b → done b) ∧ Asked (Sweep rank n) t t' := by
  induction rounds generalizing n t with
  | zero => omega
  | succ rounds ih =>
    refine returns_loop_succ ((hround n t hinv).mono fun r t₁ hr => ?_)
    match r with
    | .ok (some b) =>
      obtain ⟨hdone, hasked⟩ := hr
      refine ⟨fun b' hb => ?_, hasked⟩
      cases hb
      exact hdone
    | .ok none =>
      obtain ⟨m, x, place, hm, hx, hplace, hlt, hle⟩ := hr
      refine (ih hm (by omega)).mono fun r t' hr => ⟨hr.1, ?_⟩
      obtain ⟨asked, hasked, hsweep⟩ := hr.2
      exact ⟨asked ++ [x], by simp [hasked, hx], .pass hplace hlt hle hsweep⟩
    | .error cause => exact ⟨fun _ hb => (nomatch hb), hr⟩

end Operation
end WalletReview
