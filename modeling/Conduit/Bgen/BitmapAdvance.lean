import Conduit.Bgen.BitmapSafety

/-!
# Reads that move by what they read

How far a decoder moves when it reads a member is decided by the value it returns and by the place
inside the octet where it starts. Two decoders that return the same members have therefore moved by
the same number of bits.
-/

namespace Conduit.Bgen

open Bits Io BitReader List

/-- A successful read moves by a number of bits that depends on the value that is read and on the
place inside the octet only. -/
def Advances {α : Type} (m : ReadM α) (size : α → Nat → Nat) : Prop :=
  ∀ (r r' : BitReader) (v : α), r.WF → m r = (.ok v, r') →
    r'.WF ∧ r'.data = r.data ∧ r'.position = r.position + size v (r.position % 8)

theorem Advances.andThen {α β : Type} {m : ReadM α} {f : α → ReadM β} {size : Nat → Nat}
    (h : Advances m fun _ => size) (hf : ∀ a r r' b, f a r = (.ok b, r') → r' = r) :
    Advances (m >>= f) fun _ => size := by
  intro r r' b hr hrun
  obtain ⟨a, s, hm, hrest⟩ := ReadM.bind_eq_ok hrun
  rw [hf a s r' b hrest]
  exact h r s a hr hm

theorem Advances.map {α β : Type} {m : ReadM α} {size : α → Nat → Nat} (f : α → β)
    {size' : β → Nat → Nat} (h : Advances m size) (hsize : ∀ a, size' (f a) = size a) :
    Advances (m >>= fun a => pure (f a)) size' := by
  intro r r' b hr hrun
  obtain ⟨a, s, hm, hrest⟩ := ReadM.bind_eq_ok hrun
  cases hrest
  rw [hsize]
  exact h r r' a hr hm

theorem advances_readBits (n : Nat) : Advances (readBits n) fun _ _ => n := by
  intro r r' v hr hrun
  by_cases hzero : n = 0
  · rw [readBits, if_pos hzero] at hrun
    cases hrun
    exact ⟨hr, rfl, by simp only [hzero, Nat.add_zero]⟩
  by_cases hlong : n > 64
  · rw [readBits, if_neg hzero, if_pos hlong] at hrun
    cases hrun
  by_cases hroom : r.remainingBits < n
  · rw [readBits, if_neg hzero, if_neg hlong, if_pos hroom] at hrun
    cases hrun
  have hle := hr.position_le
  rw [hr.remainingBits_eq] at hroom
  rw [readBits_eq hr (by omega) (by omega)] at hrun
  cases hrun
  exact ⟨hr.seek (by omega), rfl, position_seek _ _⟩

theorem advances_of_consumes {α : Type} {m : ReadM α} {n : Nat}
    (h : ∀ r : BitReader, r.WF → Consumes m n r) : Advances m fun _ q => (8 - q) % 8 + 8 * n := by
  intro r r' v hr hrun
  have hconsumes := h r hr
  unfold Consumes at hconsumes
  by_cases hroom : r.nextByte + n ≤ r.data.length
  · rw [if_pos hroom] at hconsumes
    obtain ⟨a, ha⟩ := hconsumes
    rw [hrun] at ha
    cases ha
    refine ⟨⟨hr.small, hroom, by simp, fun _ => rfl⟩, rfl, ?_⟩
    simp only [position, nextByte]
    omega
  · rw [if_neg hroom] at hconsumes
    obtain ⟨e, he⟩ := hconsumes
    rw [hrun] at he
    cases he

theorem length_takeBytes {name : String} {n : Nat} {r r' : BitReader} {bytes : List UInt8}
    (hn : n ≠ dynamicExtent) (h : takeBytes name n r = (.ok bytes, r')) : bytes.length = n := by
  simp only [takeBytes, if_neg hn] at h
  split at h
  · cases h
  split at h
  · cases h
  next hroom =>
    cases h
    rw [length_take, length_drop]
    omega

theorem liftResult_stays {α : Type} {x : Except Error α} {r r' : BitReader} {a : α}
    (h : liftResult x r = (.ok a, r')) : r' = r := by
  cases x with
  | ok b =>
    cases h
    rfl
  | error e => cases h

theorem ReadExpr.Short.advances {expr : ReadExpr} (h : expr.Short) :
    ∃ size : Nat → Nat, Advances expr.exec fun _ => size := by
  have hpure : ∀ {α β : Type} (f : α → β) (a : α) (r r' : BitReader) (b : β),
      (pure (f a) : ReadM β) r = (.ok b, r') → r' = r := by
    intro α β f a r r' b hrun
    cases hrun
    rfl
  have hfail : ∀ {α : Type} (code : ErrorCode) (message : String) (size : Nat → Nat),
      Advances (ReadM.fail code message : ReadM α) fun _ => size := by
    intro α code message size r r' v _ hrun
    cases hrun
  cases expr with
  | readBcd bits =>
    refine ⟨fun _ => bits, Advances.andThen ?_ (hpure fun n : Nat => (n : Int))⟩
    unfold BitReader.readBcd
    split
    next hzero =>
      subst hzero
      intro r r' v hr hrun
      cases hrun
      exact ⟨hr, rfl, rfl⟩
    next =>
      split
      · exact hfail _ _ _
      split
      · exact hfail _ _ _
      · exact (advances_readBits bits).andThen fun _ _ _ _ => liftResult_stays
  | readBcdSigned bits =>
    refine ⟨fun _ => bits, ?_⟩
    show Advances (BitReader.readBcdSigned bits) _
    unfold BitReader.readBcdSigned
    split
    · exact hfail _ _ _
    split
    · exact hfail _ _ _
    split
    · exact hfail _ _ _
    refine (advances_readBits bits).andThen ?_
    intro raw r r' v hrun
    obtain ⟨result, s, hdigits, hrest⟩ := ReadM.bind_eq_ok hrun
    cases hrest
    exact liftResult_stays hdigits
  | readSignMagnitude bits =>
    refine ⟨fun _ => bits, ?_⟩
    show Advances (BitReader.readSignMagnitude bits) _
    unfold BitReader.readSignMagnitude
    split
    · exact hfail _ _ _
    · exact (advances_readBits bits).andThen (hpure _)
  | readBits bits =>
    exact ⟨fun _ => bits, (advances_readBits bits).andThen (hpure fun n : Nat => (n : Int))⟩
  | readSignedBits bits =>
    refine ⟨fun _ => bits, ?_⟩
    show Advances (BitReader.readSignedBits bits) _
    unfold BitReader.readSignedBits
    split
    next hzero =>
      subst hzero
      intro r r' v hr hrun
      cases hrun
      exact ⟨hr, rfl, rfl⟩
    next => exact (advances_readBits bits).andThen (hpure _)
  | readU8 =>
    exact ⟨_, (advances_of_consumes fun _ => BitReader.consumes_readU8).andThen
      (hpure fun n : Nat => (n : Int))⟩
  | readWord call bytes e =>
    exact ⟨_, (advances_of_consumes fun _ hr => BitReader.consumes_readFixed hr call h e).andThen
      (hpure fun n : Nat => (n : Int))⟩
  | readSignedWord call bytes e =>
    exact ⟨_, (advances_of_consumes fun _ hr => BitReader.consumes_readFixed hr call h e).andThen
      (hpure fun n : Nat => (n : Int).bmod (2 ^ (8 * bytes)))⟩

section Members

variable {O : Type} {other : OtherCode O} {presence : BitmapField → Option Bool}
  {fs : List BitmapField}

/-- The reads of the members that are coded elsewhere move by what they read. -/
def OtherCode.Advancing (other : OtherCode O) : Prop :=
  ∀ name, ∃ size : O → Nat → Nat, ∀ before, Advances (other.read name before) size

/-- The bits of a read that takes the rest of the bytes. -/
def restSize : MemberValue O → Nat → Nat
  | .bytes bytes, q => (8 - q) % 8 + 8 * bytes.length
  | _, _ => 0

/-- The bits of a member that is coded elsewhere. -/
def otherSize (size : O → Nat → Nat) : MemberValue O → Nat → Nat
  | .other v, q => size v q
  | _, _ => 0

theorem MemberAccess.Emitted.advances {f : BitmapField} (h : f.access.Emitted)
    (hother : other.Advancing) :
    ∃ size : MemberValue O → Nat → Nat, ∀ before, Advances (f.read other before) size := by
  unfold BitmapField.read
  cases haccess : f.access with
  | number write read =>
    rw [haccess] at h
    obtain ⟨size, hsize⟩ := ReadExpr.Short.advances h
    exact ⟨fun _ => size, fun _ => hsize.map MemberValue.number fun _ => rfl⟩
  | bytes length =>
    rw [haccess] at h
    cases length with
    | some n =>
      have hconsumes : ∀ r : BitReader, r.WF → Consumes (readBytes n) n r := by
        intro r hr
        have hint : n < 2 ^ 31 := h
        have hnext := hr.nextByte_le
        have hsmall := hr.small
        exact consumes_takeBytes hr "read_bytes" (by omega)
      exact ⟨fun _ q => (8 - q) % 8 + 8 * n,
        fun _ => (advances_of_consumes hconsumes).map MemberValue.bytes fun _ => rfl⟩
    | none =>
      refine ⟨restSize, ?_⟩
      intro before r r' v hr hrun
      have hnext := hr.nextByte_le
      have hsmall := hr.small
      have hremaining : r.remainingBytes = r.data.length - r.nextByte := hr.remainingBytes_eq
      obtain ⟨bytes, s, hbytes, hrest⟩ := ReadM.bind_eq_ok hrun
      cases hrest
      have hlength : bytes.length = r.remainingBytes := 
        length_takeBytes (by unfold dynamicExtent; omega) hbytes
      have hroom : r.nextByte + r.remainingBytes ≤ r.data.length := by omega
      obtain ⟨a, ha⟩ := (if_pos hroom).mp (consumes_takeBytes hr "read_bytes"
        (show r.nextByte + r.remainingBytes < 2 ^ 64 by omega))
      cases hbytes.symm.trans ha
      refine ⟨⟨hr.small, hroom, by simp, fun _ => rfl⟩, rfl, ?_⟩
      simp only [restSize, hlength, position, nextByte]
      omega
  | other =>
    obtain ⟨size, hsize⟩ := hother f.name
    exact ⟨otherSize size,
      fun before => (hsize before).map MemberValue.other fun _ => rfl⟩

/-! ## Runs over the members -/

theorem readMembers_ok {before decoded : Members O} {r r' : BitReader}
    (hnames : (fs.map (·.name)).Nodup)
    (h : readMembers other presence fs before r = (.ok decoded, r')) :
    (∀ name, name ∉ fs.map (·.name) → decoded name = before name)
      ∧ ∀ f ∈ fs, presence f = some true ∧ (decoded f.name).isSome
        ∨ presence f = some false ∧ decoded f.name = before f.name := by
  induction fs generalizing before r with
  | nil =>
    cases h
    exact ⟨fun _ _ => rfl, fun f hf => by cases hf⟩
  | cons g fs ih =>
    rw [map_cons, nodup_cons] at hnames
    obtain ⟨hg, hnames⟩ := hnames
    rw [readMembers] at h
    cases hpresence : presence g with
    | none =>
      rw [hpresence] at h
      cases h
    | some present =>
      rw [hpresence] at h
      cases present with
      | false =>
        obtain ⟨hframe, hall⟩ := ih hnames h
        refine ⟨?_, ?_⟩
        · intro name hname
          rw [map_cons, mem_cons, not_or] at hname
          exact hframe name hname.2
        intro f hf
        rcases mem_cons.mp hf with rfl | hf
        · exact .inr ⟨hpresence, hframe f.name hg⟩
        · exact hall f hf
      | true =>
        obtain ⟨value, s, -, h⟩ := ReadM.bind_eq_ok h
        obtain ⟨hframe, hall⟩ := ih hnames h
        refine ⟨?_, ?_⟩
        · intro name hname
          rw [map_cons, mem_cons, not_or] at hname
          rw [hframe name hname.2, Members.assign, if_neg hname.1]
        intro f hf
        rcases mem_cons.mp hf with rfl | hf
        · refine .inl ⟨hpresence, ?_⟩
          rw [hframe f.name hg, Members.assign, if_pos rfl]
          rfl
        have hne : f.name ≠ g.name := by
          intro heq
          exact hg (heq ▸ mem_map_of_mem hf)
        rcases hall f hf with hfound | ⟨habsent, hsame⟩
        · exact .inl hfound
        rw [Members.assign, if_neg hne] at hsame
        exact .inr ⟨habsent, hsame⟩

theorem readMembers_shift {before before' decoded decoded' : Members O} {r r' s s' : BitReader}
    (hnames : (fs.map (·.name)).Nodup) (hsizes : ∀ f ∈ fs, ∃ size : MemberValue O → Nat → Nat,
      ∀ before, Advances (f.read other before) size) (hr : r.WF) (hs : s.WF)
    (hmod : r.position % 8 = s.position % 8)
    (h : readMembers other presence fs before r = (.ok decoded, r'))
    (h' : readMembers other presence fs before' s = (.ok decoded', s'))
    (hsame : ∀ f ∈ fs, presence f = some true → decoded f.name = decoded' f.name) :
    r'.WF ∧ r'.data = r.data ∧ r'.position + s.position = s'.position + r.position := by
  induction fs generalizing before before' r s with
  | nil =>
    cases h
    cases h'
    exact ⟨hr, rfl, Nat.add_comm _ _⟩
  | cons g fs ih =>
    rw [map_cons, nodup_cons] at hnames
    obtain ⟨hg, hnames⟩ := hnames
    have hsizes' := fun f hf => hsizes f (mem_cons_of_mem g hf)
    have hsame' := fun f hf => hsame f (mem_cons_of_mem g hf)
    rw [readMembers] at h h'
    cases hpresence : presence g with
    | none =>
      rw [hpresence] at h
      cases h
    | some present =>
      rw [hpresence] at h h'
      cases present with
      | false => exact ih hnames hsizes' hr hs hmod h h' hsame'
      | true =>
        obtain ⟨value, m, hread, h⟩ := ReadM.bind_eq_ok h
        obtain ⟨value', m', hread', h'⟩ := ReadM.bind_eq_ok h'
        have hvalue : value = value' := by
          have hfinal := hsame g mem_cons_self hpresence
          rw [(readMembers_ok hnames h).1 g.name hg, (readMembers_ok hnames h').1 g.name hg,
            Members.assign, Members.assign, if_pos rfl, if_pos rfl] at hfinal
          exact Option.some.inj hfinal
        subst hvalue
        obtain ⟨size, hsize⟩ := hsizes g mem_cons_self
        obtain ⟨hm, hdata, hpos⟩ := hsize before r m value hr hread
        obtain ⟨hm', -, hpos'⟩ := hsize before' s m' value hs hread'
        rw [← hmod] at hpos'
        obtain ⟨hwf, hdata', hshift⟩ := ih hnames hsizes' hm hm' (by omega) h h' hsame'
        exact ⟨hwf, hdata'.trans hdata, by omega⟩

theorem readMembers_congr {presence' : BitmapField → Option Bool}
    (h : ∀ f ∈ fs, presence f = presence' f) (before : Members O) :
    readMembers other presence fs before = readMembers other presence' fs before := by
  induction fs generalizing before with
  | nil => rfl
  | cons f fs ih =>
    have hrest := fun before => ih (fun g hg => h g (mem_cons_of_mem f hg)) before
    simp only [readMembers, h f mem_cons_self, hrest]

end Members

end Conduit.Bgen
