import FluentBit.InCollectd.Netprot

/-! What the loop over the parts of a datagram reads, and when it ends. -/

set_option autoImplicit false

namespace FluentBit.InCollectd

variable {input : Input} {state : State} {len : Nat}

theorem State.terminator_eq : state.terminator input = state.buf + state.partLen input := by
  unfold State.terminator State.size
  omega

theorem netprotPackValue_size {ptr : Nat} {size : Int} {hdr : NetprotHeader} {record : List (String × Value)}
    (packed : netprotPackValue input ptr size hdr = some record) : size = 2 + (beRead input 2 ptr : Int) * 9 := by
  by_contra other
  cases known : hdr.type <;> simp [netprotPackValue, known, other] at packed

theorem body_cases (state : State) : (body input state).failed = true ∧ (body input state).len = state.len ∨
      state.refused input = false ∧ (state.partType input = .value → 6 ≤ state.partLen input) ∧
        ∃ records, body input state = { state with
          hdr := state.nextHdr input, buf := state.buf + state.partLen input
          len := state.len - state.partLen input, records := records } := by
  unfold body
  cases refused : state.refused input with
  | true => exact .inl ⟨rfl, rfl⟩
  | false =>
    by_cases value : state.partType input = .value
    · rw [if_neg (by simp), if_pos value]
      cases packed : netprotPackValue input (state.buf + 4) (state.size input) state.hdr with
      | none => exact .inl ⟨rfl, rfl⟩
      | some record =>
        refine .inr ⟨rfl, fun _ => ?_, _, rfl⟩
        have sized := netprotPackValue_size packed
        unfold State.size at sized
        omega
    · exact .inr ⟨rfl, fun same => absurd same value, _, by rw [if_neg (by simp), if_neg value]⟩

/-- The part that the loop is at has no length, and the `switch` does not refuse it. -/
def Stuck (input : Input) (state : State) : Prop :=
  state.partLen input = 0 ∧ state.partType input ≠ .value

theorem Stuck.body (stuck : Stuck input state) (going : Going state) :
    Going (body input state) ∧ Stuck input (body input state) := by
  obtain ⟨empty, other⟩ := stuck
  have accepted : state.refused input = false := by
    simp [State.refused, State.size, empty]
  have same : InCollectd.body input state = { state with hdr := state.nextHdr input } := by
    simp [InCollectd.body, accepted, other, empty]
  rw [same]
  exact ⟨going, empty, other⟩

theorem body_len_le (state : State) : (body input state).len ≤ state.len := by
  obtain ⟨-, same⟩ | ⟨-, -, records, same⟩ := @body_cases input state
  · exact Nat.le_of_eq same
  · rw [same]
    exact Nat.sub_le _ _

theorem stuck_of_len (going : Going state) (next : Going (body input state))
    (same : (body input state).len = state.len) : Stuck input state := by
  obtain ⟨failed, -⟩ | ⟨accepted, sized, records, moved⟩ := @body_cases input state
  · rw [next.1] at failed
    cases failed
  · have fits : ¬ state.len < state.partLen input := by
      intro short
      simp [State.refused, short] at accepted
    have four := going.2
    rw [moved] at same
    have empty : state.partLen input = 0 := by
      simp only at same
      omega
    refine ⟨empty, fun value => ?_⟩
    have large := sized value
    omega

theorem netprotToMsgpack_succ {rounds : Nat} (going : Going (netprotToMsgpack input len rounds)) :
    netprotToMsgpack input len (rounds + 1) = body input (netprotToMsgpack input len rounds) :=
  Loop.step_going going

/-- The loop ends and each round takes bytes away or fails, if and only if it comes to no part of length 0 but a
value part. -/
theorem netprotToMsgpack_terminates_iff (input : Input) (len : Nat) :
    ((∃ rounds, ¬ Going (netprotToMsgpack input len rounds)) ∧ ∀ rounds, Going (netprotToMsgpack input len rounds) →
        (netprotToMsgpack input len (rounds + 1)).failed = true ∨
        (netprotToMsgpack input len (rounds + 1)).len < (netprotToMsgpack input len rounds).len) ↔
    ∀ rounds, Going (netprotToMsgpack input len rounds) → (netprotToMsgpack input len rounds).partLen input = 0 →
      (netprotToMsgpack input len rounds).partType input = .value := by
  have ends : (∃ rounds, ¬ Going (netprotToMsgpack input len rounds)) ↔
      ∀ rounds, ¬ (Going (netprotToMsgpack input len rounds) ∧ Stuck input (netprotToMsgpack input len rounds)) := by
    have lowers : ∀ state, State.len (body input state) ≤ State.len state := body_len_le
    refine Loop.ends_iff lowers (fun _ going stuck => stuck.body going) ?_ _
    intro state going settled
    have next : Loop.step Going (body input) state = body input state := Loop.step_going (going 0)
    exact stuck_of_len (going 0) (next ▸ going 1) (next ▸ settled 1)
  constructor
  · rintro ⟨ended, -⟩ rounds going empty
    by_contra other
    exact ends.mp ended rounds ⟨going, empty, other⟩
  · intro valued
    refine ⟨ends.mpr fun rounds ⟨going, empty, other⟩ => other (valued rounds going empty), ?_⟩
    intro rounds going
    rw [netprotToMsgpack_succ going]
    by_contra still
    obtain ⟨runs, stays⟩ := not_or.mp still
    have large := @body_len_le input (netprotToMsgpack input len rounds)
    have same : (body input (netprotToMsgpack input len rounds)).len = (netprotToMsgpack input len rounds).len := by
      omega
    have next : Going (body input (netprotToMsgpack input len rounds)) := ⟨by simpa using runs, same ▸ going.2⟩
    obtain ⟨empty, other⟩ := stuck_of_len going next same
    exact other (valued rounds going empty)

def zeros : Input := { memory := fun _ => 0, tdb := [], encodes := fun _ => true }

/-- A host of no length at all. -/
theorem netprotToMsgpack_zeros_endless : ¬ ((∃ rounds, ¬ Going (netprotToMsgpack zeros 4 rounds)) ∧
      ∀ rounds, Going (netprotToMsgpack zeros 4 rounds) → (netprotToMsgpack zeros 4 (rounds + 1)).failed = true ∨
        (netprotToMsgpack zeros 4 (rounds + 1)).len < (netprotToMsgpack zeros 4 rounds).len) := by
  have forever : ∀ rounds, Going (netprotToMsgpack zeros 4 rounds) ∧ Stuck zeros (netprotToMsgpack zeros 4 rounds) := by
    intro rounds
    induction rounds with
    | zero => exact ⟨⟨rfl, Nat.le_refl 4⟩, rfl, by decide⟩
    | succ rounds ih =>
      rw [netprotToMsgpack_succ ih.1]
      exact ih.2.body ih.1
  rintro ⟨⟨rounds, ended⟩, -⟩
  exact ended (forever rounds).1

/-- The bytes of a C string, with the one that ends it. -/
def InString (input : Input) (position p : Nat) : Prop :=
  position ≤ p ∧ ∀ q, position ≤ q → q < p → input.memory q ≠ 0

def NetprotHeader.strings (hdr : NetprotHeader) : List (Option Nat) :=
  [hdr.host, hdr.plugin, hdr.pluginInstance, hdr.type, hdr.typeInstance]

/-- What `netprot_pack_value` reads; it may stop before the end when it gives up the record. -/
def PackReads (input : Input) (ptr : Nat) (size : Int) (hdr : NetprotHeader) (p : Nat) : Prop :=
  hdr.type ≠ none ∧ (ptr ≤ p ∧ p < ptr + 2 ∨ size = 2 + (beRead input 2 ptr : Int) * 9 ∧
    ((∃ position, some position ∈ hdr.strings ∧ InString input position p) ∨
      ptr + 2 ≤ p ∧ p < ptr + 2 + 9 * beRead input 2 ptr))

def Reads (input : Input) (state : State) (p : Nat) : Prop :=
  state.buf ≤ p ∧ p < state.buf + 4 ∨ state.refused input = false ∧
    ((state.partType input).isString = true ∧ p = state.terminator input ∨
      (state.partType input).isTime = true ∧ state.buf + 4 ≤ p ∧ p < state.buf + 12 ∨
      state.partType input = .value ∧ PackReads input (state.buf + 4) (state.size input) state.hdr p)

def EndsInPart (input : Input) (state : State) : Prop :=
  ∃ p, state.buf + 4 ≤ p ∧ p < state.buf + state.partLen input ∧ input.memory p = 0

structure Safe (input : Input) (len : Nat) (state : State) : Prop where
  inside : ∀ p, Reads input state p → p < len
  terminated : state.refused input = false → state.kept input = true → EndsInPart input state
  interpreted : state.refused input = false → 4 ≤ state.partLen input ∧ state.partLen input ≤ state.len

/-- The length of a part covers its header, a string is not the last part and has an end if a zero
follows, and a value part has its count once the type is known. -/
def Sound (input : Input) (state : State) : Prop :=
  state.refused input = false → 4 ≤ state.partLen input ∧
    ((state.partType input).isString = true → state.partLen input < state.len ∧
      (input.memory (state.buf + state.partLen input) = 0 → EndsInPart input state)) ∧
    (state.partType input = .value → state.hdr.type ≠ none → 6 ≤ state.len)

structure Inside (input : Input) (len : Nat) (state : State) : Prop where
  rest : state.buf + state.len = len
  ended : ∀ position, some position ∈ state.hdr.strings → ∃ p, position ≤ p ∧ p < len ∧ input.memory p = 0

theorem Safe.sound (inside : Inside input len state) (safe : Safe input len state) : Sound input state := by
  intro accepted
  have rest := inside.rest
  refine ⟨(safe.interpreted accepted).1, fun string => ⟨?_, fun zero => ?_⟩, fun value known => ?_⟩
  · have read := safe.inside _ (.inr ⟨accepted, .inl ⟨string, rfl⟩⟩)
    rw [State.terminator_eq] at read
    omega
  · apply safe.terminated accepted
    simp [State.kept, string, State.terminator_eq, zero]
  · have read := safe.inside (state.buf + 5) (.inr ⟨accepted, .inr (.inr ⟨value, known, .inl (by omega)⟩)⟩)
    omega

theorem Sound.safe (inside : Inside input len state) (going : Going state) (sound : Sound input state) :
    Safe input len state := by
  have rest := inside.rest
  have fits : state.refused input = false → state.partLen input ≤ state.len := by
    intro accepted
    by_contra short
    simp [State.refused, Nat.lt_of_not_le short] at accepted
  constructor
  · intro p read
    obtain header | ⟨accepted, ⟨string, rfl⟩ | ⟨time, near⟩ | ⟨value, known, count | ⟨sized, text | values⟩⟩⟩ := read
    · have four := going.2
      omega
    · have room := ((sound accepted).2.1 string).1
      rw [State.terminator_eq]
      omega
    · have long := (sound accepted).1
      have large : ¬ state.size input % 2 ^ 64 < 8 := by
        intro small
        simp only [State.refused, time, decide_eq_true small, Bool.and_self, Bool.or_true] at accepted
        cases accepted
      have fit := fits accepted
      unfold State.size at large
      omega
    · have room := (sound accepted).2.2 value known
      omega
    · obtain ⟨position, held, start, unended⟩ := text
      obtain ⟨stop, behind, before, zero⟩ := inside.ended position held
      have notPast : ¬ stop < p := fun past => unended stop behind past zero
      omega
    · have fit := fits accepted
      unfold State.size at sized
      omega
  · intro accepted kept
    obtain ⟨string, zero⟩ := Bool.and_eq_true_iff.mp kept
    rw [State.terminator_eq] at zero
    exact ((sound accepted).2.1 string).2 (by simpa using zero)
  · exact fun accepted => ⟨(sound accepted).1, fits accepted⟩

theorem mem_strings_nextHdr {position : Nat} (held : some position ∈ (state.nextHdr input).strings) :
    some position ∈ state.hdr.strings ∨ state.kept input = true ∧ position = state.buf + 4 := by
  unfold State.nextHdr at held
  cases kind : state.partType input <;> cases kept : state.kept input <;>
    simp [kind, kept, NetprotHeader.strings] at held ⊢ <;> grind

theorem Sound.next (inside : Inside input len state) (sound : Sound input state)
    (next : Going (body input state)) : Inside input len (body input state) := by
  obtain ⟨failed, -⟩ | ⟨accepted, -, records, moved⟩ := @body_cases input state
  · rw [next.1] at failed
    cases failed
  · have rest := inside.rest
    have fits : ¬ state.len < state.partLen input := by
      intro short
      simp [State.refused, short] at accepted
    rw [moved]
    refine ⟨by simp only; omega, fun position held => ?_⟩
    obtain before | ⟨kept, rfl⟩ := mem_strings_nextHdr held
    · exact inside.ended position before
    · obtain ⟨string, zero⟩ := Bool.and_eq_true_iff.mp kept
      rw [State.terminator_eq] at zero
      obtain ⟨p, start, stop, ends⟩ := ((sound accepted).2.1 string).2 (by simpa using zero)
      exact ⟨p, start, by omega, ends⟩

theorem netprotToMsgpack_inside {holds : State → Prop}
    (step : ∀ {state}, Inside input len state → holds state → Going (body input state) →
      Inside input len (body input state))
    (always : ∀ rounds, Going (netprotToMsgpack input len rounds) → holds (netprotToMsgpack input len rounds))
    (rounds : Nat) (going : Going (netprotToMsgpack input len rounds)) :
    Inside input len (netprotToMsgpack input len rounds) := by
  induction rounds with
  | zero =>
    refine ⟨Nat.zero_add len, fun position held => ?_⟩
    simp [netprotToMsgpack, Loop.passes, NetprotHeader.strings] at held
  | succ rounds ih =>
    have before := Loop.going_of_le (Nat.le_succ rounds) going
    rw [netprotToMsgpack_succ before] at going ⊢
    exact step (ih before) (always rounds before) going

/-- What the loop does is safe in every round, if and only if each part it comes to is sound. -/
theorem netprotToMsgpack_safe_iff (input : Input) (len : Nat) :
    (∀ rounds, Going (netprotToMsgpack input len rounds) → Safe input len (netprotToMsgpack input len rounds)) ↔
      ∀ rounds, Going (netprotToMsgpack input len rounds) → Sound input (netprotToMsgpack input len rounds) := by
  constructor
  · intro safe rounds going
    refine (safe rounds going).sound (netprotToMsgpack_inside ?_ safe rounds going)
    exact fun inside safe next => (safe.sound inside).next inside next
  · intro sound rounds going
    refine (sound rounds going).safe ?_ going
    exact netprotToMsgpack_inside (fun inside sound next => sound.next inside next) sound rounds going

/-- A host `h` with its end, and nothing behind it. -/
def host : Input := { zeros with memory := fun p => [0, 0, 0, 6, 104, 0].getD p 1 }

theorem netprotToMsgpack_host_outside :
    ¬ ∀ rounds, Going (netprotToMsgpack host 6 rounds) → Safe host 6 (netprotToMsgpack host 6 rounds) := by
  intro safe
  have read := (safe 0 ⟨rfl, by decide⟩).inside 6 (.inr ⟨by decide, .inl ⟨by decide, by decide⟩⟩)
  exact Nat.lt_irrefl 6 read

end FluentBit.InCollectd
