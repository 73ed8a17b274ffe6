import FluentBit.CloudWatch.Streams
import FluentBit.Foundation.Extremum
import Mathlib.Data.List.Nodup

/-! The time span that a stream holds, and what a flush reads at the address of a stream. -/

set_option autoImplicit false

namespace FluentBit.CloudWatch

variable {Object : Type}

def LogStream.Spans (stream : LogStream) (timestamps : List Nat) : Prop :=
  (timestamps = [] ∧ stream.oldestEvent = 0 ∧ stream.newestEvent = 0) ∨
    Hull timestamps stream.oldestEvent stream.newestEvent

section

variable {stream : LogStream} {timestamps : List Nat}

theorem clearTimeSpan_spans (stream : LogStream) : (clearTimeSpan stream).Spans [] := .inl ⟨rfl, rfl, rfl⟩

section

variable (spans : stream.Spans timestamps) (dated : ∀ time ∈ timestamps, time ≠ 0)
include spans dated

theorem setStreamTimeSpan_spans (time : Nat) : (setStreamTimeSpan time stream).Spans (timestamps ++ [time]) := by
  right
  cases spans with
  | inl unset =>
    obtain ⟨rfl, oldest, newest⟩ := unset
    simp only [setStreamTimeSpan, oldest, newest, true_or, if_true, List.nil_append]
    exact .single time
  | inr hull =>
    have oldest := dated _ hull.first
    have newest := dated _ hull.last
    simp only [setStreamTimeSpan, oldest, newest, false_or]
    exact hull.push time

/-- A time that is let in is less than a day from each pending one. -/
theorem checkStreamTimeSpan_close {time : Nat} (short : checkStreamTimeSpan stream time = true) :
    ∀ other ∈ timestamps, other < time + oneDayInMilliseconds ∧ time < other + oneDayInMilliseconds := by
  intro other member
  cases spans with
  | inl unset =>
    obtain ⟨rfl, _⟩ := unset
    cases member
  | inr hull =>
    have oldest := dated _ hull.first
    have newest := dated _ hull.last
    obtain ⟨low, high⟩ := hull.between other member
    unfold checkStreamTimeSpan streamTimeSpan at short
    simp only [oldest, newest, or_self, if_false, decide_eq_true_eq] at short
    split at short
    · omega
    · split at short
      · omega
      · omega

end

theorem checkStreamTimeSpan_unset (spans : stream.Spans []) (time : Nat) : checkStreamTimeSpan stream time = true := by
  cases spans with
  | inl unset =>
    unfold checkStreamTimeSpan streamTimeSpan
    simp [unset.2.1]
  | inr hull => cases hull.first

end

section

variable {s later : System Object} {address : Nat}

private theorem has_iff : s.Has address ↔ ∃ stream, s.stream? address = some stream := by
  unfold System.Has System.stream?
  rw [← Option.isSome_iff_exists, List.find?_isSome]
  simp

theorem read_modify {change : LogStream → LogStream} (stays : ∀ stream, (change stream).address = stream.address)
    (present : s.Has address) (other : Nat) :
    (s.modify address change).read other = if other = address then change (s.read address) else s.read other := by
  have found : (s.modify address change).stream? other =
      (s.stream? other).map fun stream => if stream.address = address then change stream else stream := by
    unfold System.stream? System.modify
    rw [List.find?_map]
    congr 2
    funext stream
    simp only [Function.comp]
    split
    · rw [stays]
    · rfl
  unfold System.read
  rw [found]
  cases there : s.stream? other with
  | none =>
    have differs : other ≠ address := by
      rintro rfl
      obtain ⟨stream, found⟩ := has_iff.mp present
      rw [there] at found
      cases found
    simp [differs]
  | some stream =>
    have same : stream.address = other := by
      have known := read_address s other
      simpa [System.read, there] using known
    by_cases equal : other = address
    · subst equal
      simp [there, same]
    · simp [equal, same]

private theorem read_mem (present : s.Has address) : s.read address ∈ s.streams := by
  obtain ⟨stream, found⟩ := has_iff.mp present
  rw [System.read, found]
  exact List.mem_of_find?_eq_some found

variable {stream : LogStream}

theorem read_of_mem (distinct : s.addresses.Nodup) (member : stream ∈ s.streams) : s.read stream.address = stream := by
  have there := read_mem ⟨stream, member, rfl⟩
  exact List.inj_on_of_nodup_map distinct there member (read_address s _)

theorem read_sublist (distinct : s.addresses.Nodup) (left : later.streams.Sublist s.streams)
    (present : later.Has address) : later.read address = s.read address := by
  have inside := left.subset (read_mem present)
  have same := read_of_mem distinct inside
  rw [read_address] at same
  exact same.symm

theorem read_append (present : s.Has address) (streams : later.streams = s.streams ++ [stream]) :
    later.read address = s.read address := by
  obtain ⟨there, found⟩ := has_iff.mp present
  have foundLater : later.stream? address = some there := by
    unfold System.stream? at found ⊢
    rw [streams, List.find?_append, found]
    rfl
  rw [System.read, System.read, found, foundLater]

end

end FluentBit.CloudWatch
