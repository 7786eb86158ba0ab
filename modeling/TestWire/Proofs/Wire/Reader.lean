import TestWire.Proofs.Wire.Varint
import TestWire.Wire.Reader

/-! # What readers take

A reader succeeds exactly on the inputs that start with a form of its result, and leaves the bytes
behind that form.
-/

namespace TestWire

namespace Reader

variable {α β : Type}

/-- The reader takes a form of its result off the front of the input, whatever follows it. -/
def Reads (read : Reader α) (form : Bytes → α → Prop) : Prop :=
  ∀ input a rest, read input = .ok a rest ↔ ∃ front, input = front ++ rest ∧ form front a

theorem bind_apply (read : Reader α) (next : α → Reader β) (input : Bytes) :
    (read >>= next) input =
      match read input with
      | .ok a rest => next a rest
      | .error error rest => .error error rest := by
  cases h : read input <;> simp [Bind.bind, EStateM.bind, h]

namespace Reads

theorem ok_append {read : Reader α} {form : Bytes → α → Prop} (h : read.Reads form)
    {front : Bytes} {a : α} (hform : form front a) (rest : Bytes) :
    read (front ++ rest) = .ok a rest :=
  (h _ _ _).mpr ⟨front, rfl, hform⟩

theorem congr {read : Reader α} {form form' : Bytes → α → Prop} (h : read.Reads form)
    (hform : ∀ front a, form front a ↔ form' front a) : read.Reads form' := by
  intro input a rest
  rw [h input a rest]
  constructor
  · intro h
    rcases h with ⟨front, hinput, hfront⟩
    exact ⟨front, hinput, (hform front a).mp hfront⟩
  · intro h
    rcases h with ⟨front, hinput, hfront⟩
    exact ⟨front, hinput, (hform front a).mpr hfront⟩

theorem pure (a : α) : Reads (Pure.pure a) fun front b => front = [] ∧ b = a := by
  intro input b rest
  constructor
  · intro h
    cases h
    exact ⟨[], rfl, rfl, rfl⟩
  · intro h
    rcases h with ⟨_, rfl, rfl, rfl⟩
    rfl

theorem throw (error : DecodeError) : Reads (throw error : Reader α) fun _ _ => False := by
  intro input b rest
  constructor
  · intro h
    cases h
  · intro h
    rcases h with ⟨_, _, hfalse⟩
    exact hfalse.elim

theorem ofExcept (answer : Except DecodeError α) :
    (ofExcept answer).Reads fun front a => front = [] ∧ answer = .ok a := by
  cases answer with
  | ok a => exact (pure a).congr fun _ _ => by simp [eq_comm]
  | error error => exact (Reads.throw error).congr fun _ _ => by simp

theorem bind {read : Reader α} {next : α → Reader β} {form : Bytes → α → Prop}
    {nextForm : α → Bytes → β → Prop} (hread : read.Reads form)
    (hnext : ∀ a, (next a).Reads (nextForm a)) :
    Reads (read >>= next) fun front b =>
      ∃ a first second, front = first ++ second ∧ form first a ∧ nextForm a second b := by
  intro input b rest
  rw [bind_apply]
  constructor
  · intro h
    cases hr : read input with
    | error e middle => simp [hr] at h
    | ok a middle =>
        rw [hr] at h
        obtain ⟨first, rfl, hfirst⟩ := (hread _ _ _).mp hr
        obtain ⟨second, rfl, hsecond⟩ := (hnext a _ _ _).mp h
        exact ⟨first ++ second, by simp, a, first, second, rfl, hfirst, hsecond⟩
  · intro h
    rcases h with ⟨_, rfl, a, first, second, rfl, hfirst, hsecond⟩
    rw [List.append_assoc, hread.ok_append hfirst]
    exact (hnext a).ok_append hsecond rest

theorem map {read : Reader α} {form : Bytes → α → Prop} (h : read.Reads form) (f : α → β) :
    Reads (f <$> read) fun front b => ∃ a, form front a ∧ b = f a := by
  rw [map_eq_pure_bind]
  refine (h.bind fun a => Reads.pure (f a)).congr fun front b => ?_
  constructor
  · intro h
    rcases h with ⟨a, first, _, rfl, hfirst, rfl, rfl⟩
    exact ⟨a, by simpa using hfirst, rfl⟩
  · intro h
    rcases h with ⟨a, hfront, rfl⟩
    exact ⟨a, front, [], by simp, hfront, rfl, rfl⟩

theorem discard {read : Reader α} {form : Bytes → α → Prop} (h : read.Reads form) :
    Reads (discard read) fun front _ => ∃ a, form front a :=
  (h.map fun _ => ()).congr fun _ _ => by simp

end Reads

/-! ## The readers -/

theorem byte_reads (context : String) : (byte context).Reads fun front b => front = [b] := by
  intro input b rest
  cases input with
  | nil => simp [byte]
  | cons first input => simp [byte, eq_comm]

theorem bytes_reads (n : Nat) (context : String) :
    (bytes n context).Reads fun front content => front = content ∧ content.length = n := by
  intro input content rest
  cases h : input.split? n with
  | none =>
      rw [Bytes.split?_eq_none_iff] at h
      constructor
      · intro hread
        have hsplit : input.split? n = none := Bytes.split?_eq_none_iff.mpr h
        simp [bytes, hsplit] at hread
      · intro h
        rcases h with ⟨_, rfl, rfl, hlength⟩
        rw [List.length_append] at h
        omega
  | some parts =>
      obtain ⟨front, behind⟩ := parts
      have hread : bytes n context input = .ok front behind := by simp [bytes, h]
      obtain ⟨rfl, hlength⟩ := Bytes.split?_eq_some_iff.mp h
      rw [hread]
      constructor
      · intro heq
        cases heq
        exact ⟨_, rfl, rfl, hlength⟩
      · intro h
        rcases h with ⟨_, heq, rfl, hlength'⟩
        obtain ⟨rfl, rfl⟩ := List.append_inj heq (by omega)
        rfl

theorem varintDigits_cons (context : String) (places : Nat) (b : UInt8) (input : Bytes) :
    varintDigits context (places + 1) (b :: input) =
      if places = 0 ∧ 1 < b.toNat % 128 then
        .error (.malformedVarint context) input
      else if b.toNat < 128 then
        .ok (b.toNat % 128) input
      else
        match varintDigits context places input with
        | .ok n rest => .ok (b.toNat % 128 + 128 * n) rest
        | .error error rest => .error error rest := by
  simp only [varintDigits, bind_apply, byte]
  split
  · rfl
  · split
    · rfl
    · rw [bind_apply]
      cases varintDigits context places input <;> rfl

theorem varintDigits_reads (context : String) (places : Nat) :
    (varintDigits context places).Reads (Varint.Spelling places) := by
  induction places with
  | zero =>
      refine (Reads.throw _).congr fun front n => ?_
      simp only [false_iff]
      intro h
      cases h
  | succ places ih =>
      intro input n rest
      constructor
      · intro h
        cases input with
        | nil => cases h
        | cons b input =>
            rw [varintDigits_cons] at h
            split at h
            · cases h
            · next htop =>
                split at h
                · next hlast =>
                    cases h
                    have hmod : b.toNat % 128 = b.toNat := Nat.mod_eq_of_lt hlast
                    rw [hmod] at htop ⊢
                    exact ⟨[b], rfl, .last hlast (by omega)⟩
                · next hmore =>
                    split at h
                    · next m _ hr =>
                        cases h
                        obtain ⟨front, rfl, hrest⟩ := (ih _ _ _).mp hr
                        exact ⟨b :: front, rfl, .more (by omega) hrest⟩
                    · cases h
      · intro h
        rcases h with ⟨front, rfl, hspelling⟩
        cases hspelling with
        | @last _ b hbyte htop =>
            have hmod : b.toNat % 128 = b.toNat := Nat.mod_eq_of_lt hbyte
            rw [List.cons_append, varintDigits_cons, if_neg (by omega), if_pos hbyte, hmod]
            rfl
        | @more _ m b front hbyte hrest =>
            have hplaces : places ≠ 0 := by
              rintro rfl
              cases hrest
            rw [List.cons_append, varintDigits_cons, if_neg (by omega), if_neg (by omega),
              ih.ok_append hrest]

theorem varint_reads (context : String) :
    (varint context).Reads fun front value =>
      Varint.Spelling Limits.maxVarintBytes front value.toNat := by
  refine ((varintDigits_reads context _).map UInt64.ofNat).congr fun front value => ?_
  constructor
  · intro h
    rcases h with ⟨n, hspelling, rfl⟩
    rwa [UInt64.toNat_ofNat_of_lt' hspelling.lt_two_pow]
  · intro hspelling
    exact ⟨value.toNat, hspelling, UInt64.ofNat_toNat.symm⟩

theorem int32_reads (context : String) :
    (int32 context).Reads fun front value =>
      ∃ word : UInt64, Varint.Spelling Limits.maxVarintBytes front word.toNat ∧
        value = Varint.toInt32 word :=
  (varint_reads context).map Varint.toInt32

theorem fixed64_reads (context : String) :
    (fixed64 context).Reads fun front word =>
      front.length = 8 ∧ word = UInt64.ofNat front.toNatLE := by
  refine ((bytes_reads 8 context).map fun content => UInt64.ofNat content.toNatLE).congr
    fun front word => ?_
  constructor
  · intro h
    rcases h with ⟨content, ⟨rfl, hlength⟩, rfl⟩
    exact ⟨hlength, rfl⟩
  · intro h
    rcases h with ⟨hlength, rfl⟩
    exact ⟨front, ⟨rfl, hlength⟩, rfl⟩

theorem prefixed_reads (field : String) : (prefixed field).Reads Varint.Prefixed := by
  refine ((varint_reads field).bind fun length => bytes_reads length.toNat field).congr
    fun front content => ?_
  constructor
  · intro h
    rcases h with ⟨length, first, second, rfl, hspelling, rfl, hlength⟩
    rw [← hlength] at hspelling
    exact ⟨first, rfl, hspelling⟩
  · intro h
    rcases h with ⟨first, rfl, hspelling⟩
    have hlength : (UInt64.ofNat content.length).toNat = content.length :=
      UInt64.toNat_ofNat_of_lt' hspelling.lt_two_pow
    rw [← hlength] at hspelling
    exact ⟨UInt64.ofNat content.length, first, content, rfl, hspelling, rfl, hlength.symm⟩

theorem text_reads (field : String) :
    (text field).Reads fun front text => Varint.Prefixed front (Bytes.ofString text) := by
  unfold text
  refine ((prefixed_reads field).bind fun content => (?_ : Reads _ fun front text =>
    front = [] ∧ content = Bytes.ofString text)).congr fun front text => ?_
  · cases h : content.toString? with
    | none =>
        refine (Reads.throw _).congr fun front text => ?_
        have hnot (heq : content = Bytes.ofString text) : False := by simp [heq] at h
        simp only [false_iff]
        intro hform
        exact hnot hform.2
    | some text =>
        have heq : content = Bytes.ofString text := Bytes.toString?_eq_some_iff.mp h
        refine (Reads.pure text).congr fun front other => ?_
        rw [heq, ← Bytes.toString?_eq_some_iff]
        simp [eq_comm]
  · constructor
    · intro h
      obtain ⟨_, first, _, rfl, hfirst, rfl, rfl⟩ := h
      rwa [List.append_nil]
    · intro h
      exact ⟨_, front, [], by simp, h, rfl, rfl⟩

end Reader

end TestWire
