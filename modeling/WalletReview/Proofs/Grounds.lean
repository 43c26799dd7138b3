import WalletReview.Inspection
import WalletReview.Provider

/-! What a question to a provider rests on. A question about an item rests on the number of items
that the provider gave as the review began, one about a child on the number of children that it gave
last, and one about a path on its leave for every level of the path. All this is read off the
exchanges, the latest first. -/
namespace WalletReview

namespace Query

/-- The question is about what is at the end of a path, or about something below it. -/
def Below (path : List UInt8) : Query → Prop
  | childCount q | child q _ _ | canInspect q _ => path <+: q
  | _ => False

/-- The question neither begins a review nor ends one. -/
def Inner : Query → Prop
  | itemCount | conclude _ => False
  | _ => True

/-- The question is not for a number of children. -/
def Counts : Query → Prop
  | childCount _ => True
  | _ => False

theorem Below.inner {path : List UInt8} {q : Query} (h : q.Below path) : q.Inner := by
  cases q with
  | itemCount => exact h.elim
  | conclude => exact h.elim
  | _ => trivial

theorem Below.of_isPrefix {path path' : List UInt8} {q : Query} (h : q.Below path)
    (hpath : path' <+: path) : q.Below path' := by
  cases q with
  | childCount q => exact hpath.trans h
  | child q c page => exact hpath.trans h
  | canInspect q c => exact hpath.trans h
  | _ => exact h.elim

end Query

/-- There was the exchange `x`, and there have been only questions that satisfy `P` since. -/
def Since (P : Query → Prop) (x : Exchange) (log : List Exchange) : Prop :=
  ∃ later earlier, log = later ++ x :: earlier ∧ ∀ y ∈ later, P y.query

section

variable {P : Query → Prop} {x y : Exchange} {log : List Exchange}

theorem since_self : Since P x (x :: log) := ⟨[], log, rfl, by simp⟩

theorem Since.cons (h : Since P x log) (hy : P y.query) : Since P x (y :: log) := by
  obtain ⟨later, earlier, rfl, hlater⟩ := h
  exact ⟨y :: later, earlier, rfl, List.forall_mem_cons.2 ⟨hy, hlater⟩⟩

end

/-- A review is under way that began with `count` items. -/
def Counted (log : List Exchange) (count : UInt8) : Prop :=
  Since Query.Inner ⟨.itemCount, .count (.ok count)⟩ log

/-- The number of children that was asked for last is that at the end of `path`, and is `count`. -/
def ChildrenCounted (log : List Exchange) (path : List UInt8) (count : UInt8) : Prop :=
  Since (fun q => ¬q.Counts) ⟨.childCount path, .count (.ok count)⟩ log

/-- The provider gave its leave for each level of the path as it was gone into: since then it has
been asked about nothing but what is there or below. -/
structure Granted (log : List Exchange) (path : List UInt8) : Prop where
  ne_nil : path ≠ []
  length_le : path.length ≤ maxDepth + 1
  leave : ∀ k (h : k < path.length),
    Since (Query.Below (path.take (k + 1))) ⟨.canInspect (path.take k) path[k], .flag true⟩ log

def Query.Founded (log : List Exchange) : Query → Prop
  | itemCount => ∀ count, ¬Counted log count
  | item index _ => ∃ count, Counted log count ∧ index < count
  | title => ∃ count, Counted log count
  | childCount path => Granted log path
  | child path c _ => Granted log path ∧ ∃ count, ChildrenCounted log path count ∧ c < count
  | canInspect [] index => ∃ count, Counted log count ∧ index < count
  | canInspect path _ => Granted log path ∧ path.length ≤ maxDepth
  | conclude _ => True

/-- Every question rested on the exchanges before it. -/
def Founded (log : List Exchange) : Prop :=
  ∀ later x earlier, log = later ++ x :: earlier → x.query.Founded earlier

variable {log : List Exchange} {x : Exchange} {path path' : List UInt8} {child index : UInt8}

theorem founded_nil : Founded [] := by
  intro later x earlier h
  simp at h

theorem Founded.cons (h : Founded log) (hx : x.query.Founded log) : Founded (x :: log) := by
  rintro (_ | ⟨y, later⟩) z earlier hlog
  · cases hlog
    exact hx
  · cases hlog
    exact h later z earlier rfl

namespace Granted

theorem cons (h : Granted log path) (hx : x.query.Below path) : Granted (x :: log) path :=
  ⟨h.ne_nil, h.length_le, fun k hk => (h.leave k hk).cons (hx.of_isPrefix (List.take_prefix _ _))⟩

theorem of_isPrefix (h : Granted log path) (hpath : path' <+: path) (hne : path' ≠ []) :
    Granted log path' := by
  obtain ⟨rest, rfl⟩ := hpath
  have hlength := h.length_le
  rw [List.length_append] at hlength
  refine ⟨hne, by omega, fun k hk => ?_⟩
  have hleave := h.leave k (by rw [List.length_append]; omega)
  rwa [List.take_append_of_le_length (by omega), List.take_append_of_le_length (by omega),
    List.getElem_append_left hk] at hleave

theorem start : Granted (⟨.canInspect [] index, .flag true⟩ :: log) [index] := by
  refine ⟨by simp, by simp, fun k hk => ?_⟩
  obtain rfl : k = 0 := by simpa using hk
  exact since_self

theorem enter (h : Granted log path) (hdepth : path.length ≤ maxDepth) :
    Granted (⟨.canInspect path child, .flag true⟩ :: log) (path ++ [child]) := by
  refine ⟨by simp, by simpa using hdepth, fun k hk => ?_⟩
  rw [List.length_append, List.length_singleton] at hk
  rcases Nat.lt_or_ge k path.length with hlt | hge
  · rw [List.take_append_of_le_length (by omega), List.take_append_of_le_length (by omega),
      List.getElem_append_left hlt]
    exact (h.leave k hlt).cons (List.take_prefix _ _)
  · obtain rfl : k = path.length := by omega
    rw [List.take_left, List.getElem_concat_length rfl]
    exact since_self

end Granted

end WalletReview
