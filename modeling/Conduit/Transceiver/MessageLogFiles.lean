import Mathlib.Data.List.Infix

/-!
# The files of the message log

`resolve_file_key` makes the name of the file that an entry goes to from the configuration, the
direction and the name of the peer. Names of peers come from outside: the clients of a TCP server
are called `server/0`, `server/1` and so on. Separators are replaced, but a name can be the one for
the directory itself or for the one above it.
-/

namespace Conduit.Transceiver.MessageLog

open List

/-! ## The name of a file -/

inductive MessageLogMode where
  | combined
  | separateDirection
  | perPeer
  | perPeerDirection
deriving DecidableEq

/-- `transceiver_config.hpp:35-60`, what the name of a file is made of. -/
structure MessageLogConfig where
  mode : MessageLogMode := .combined
  prefix_ : List Char := "conduit".toList
  filename : List Char := []
  sentFilename : List Char := []
  receivedFilename : List Char := []

inductive Direction where
  | send
  | recv

/-- `message_log.cpp:18-29`. -/
def sanitizeForFilename (name : List Char) : List Char :=
  name.map fun c => if c = '/' ∨ c = '\\' ∨ c = ':' ∨ c = '\x00' then '_' else c

/-- The loop of `find` and `replace`, which goes on behind each text that it has put in. `skip`
characters of the placeholder are still to be left out. -/
def replaceAll (placeholder text : List Char) : Nat → List Char → List Char
  | _, [] => []
  | skip + 1, _ :: cs => replaceAll placeholder text skip cs
  | 0, c :: cs =>
    if placeholder <+: c :: cs then text ++ replaceAll placeholder text (placeholder.length - 1) cs
    else c :: replaceAll placeholder text 0 cs

def directionPlaceholder : List Char := "\x7bdirection\x7d".toList

def peerPlaceholder : List Char := "\x7bpeer\x7d".toList

/-- `message_log.cpp:159-177`. -/
def expandFilename (pattern directionLabel peerName : List Char) : List Char :=
  replaceAll peerPlaceholder (sanitizeForFilename peerName) 0
    (replaceAll directionPlaceholder directionLabel 0 pattern)

def Direction.label : Direction → List Char
  | .send => "sent".toList
  | .recv => "received".toList

/-- The pattern that the configuration gives for a direction, empty if there is none. -/
def MessageLogConfig.pattern (config : MessageLogConfig) (direction : Direction) : List Char :=
  let dirFilename :=
    match direction with
    | .send => config.sentFilename
    | .recv => config.receivedFilename
  if dirFilename ≠ [] then dirFilename else config.filename

/-- `message_log.cpp:179-209`. -/
def resolveFileKey (config : MessageLogConfig) (direction : Direction) (peerName : List Char) :
    List Char :=
  if config.pattern direction ≠ [] then
    expandFilename (config.pattern direction) direction.label peerName
  else
    let safePeer := sanitizeForFilename peerName
    match config.mode with
    | .combined => config.prefix_ ++ "_messages.log".toList
    | .separateDirection => config.prefix_ ++ "_".toList ++ direction.label ++ ".log".toList
    | .perPeer => config.prefix_ ++ "_".toList ++ safePeer ++ ".log".toList
    | .perPeerDirection =>
      config.prefix_ ++ "_".toList ++ safePeer ++ "_".toList ++ direction.label ++ ".log".toList

/-! ## Separators -/

/-- There is no path separator in the text. -/
def Plain (text : List Char) : Prop := ∀ c ∈ text, c ≠ '/' ∧ c ≠ '\\'

instance Plain.instDecidable (text : List Char) : Decidable (Plain text) :=
  decidableBAll (fun c => c ≠ '/' ∧ c ≠ '\\') text

variable {a b text placeholder : List Char} {config : MessageLogConfig} {direction : Direction}

@[simp] theorem plain_append : Plain (a ++ b) ↔ Plain a ∧ Plain b := forall_mem_append

@[simp] theorem plain_sanitize (name : List Char) : Plain (sanitizeForFilename name) := by
  intro c hc
  obtain ⟨d, -, rfl⟩ := mem_map.mp hc
  split
  · decide
  next h => exact ⟨fun hd => h (.inl hd), fun hd => h (.inr (.inl hd))⟩

theorem plain_replaceAll (skip : Nat) (htext : Plain text) (ha : Plain a) :
    Plain (replaceAll placeholder text skip a) := by
  induction a generalizing skip with
  | nil => exact ha
  | cons c cs ih =>
    obtain ⟨hc, hcs⟩ := forall_mem_cons.mp ha
    cases skip with
    | succ skip => exact ih skip hcs
    | zero =>
      rw [replaceAll]
      split
      · exact plain_append.mpr ⟨htext, ih _ hcs⟩
      · exact forall_mem_cons.mpr ⟨hc, ih 0 hcs⟩

@[simp] theorem plain_label (direction : Direction) : Plain direction.label := by
  cases direction <;> decide

/-- The texts of the configuration have no separator. -/
structure MessageLogConfig.Plain (config : MessageLogConfig) : Prop where
  prefix_ : MessageLog.Plain config.prefix_
  filename : MessageLog.Plain config.filename
  sentFilename : MessageLog.Plain config.sentFilename
  receivedFilename : MessageLog.Plain config.receivedFilename

theorem plain_ite {c : Prop} [Decidable c] (ha : Plain a) (hb : Plain b) :
    Plain (if c then a else b) := by
  split
  · exact ha
  · exact hb

theorem MessageLogConfig.Plain.pattern (h : config.Plain) (direction : Direction) :
    MessageLog.Plain (config.pattern direction) := by
  unfold MessageLogConfig.pattern
  cases direction with
  | send => exact plain_ite h.sentFilename h.filename
  | recv => exact plain_ite h.receivedFilename h.filename

theorem plain_resolveFileKey (h : config.Plain) (peerName : List Char) :
    Plain (resolveFileKey config direction peerName) := by
  have hmessages : Plain "_messages.log".toList := by decide
  have hlog : Plain ".log".toList := by decide
  have hbar : Plain "_".toList := by decide
  unfold resolveFileKey
  split
  · exact plain_replaceAll 0 (plain_sanitize peerName)
      (plain_replaceAll 0 (plain_label direction) (h.pattern direction))
  · cases config.mode <;> simp only [plain_append, plain_sanitize, plain_label, h.prefix_, hmessages,
      hlog, hbar, and_self]

/-! ## What a name depends on -/

/-- The name of the file has a place for the name of the peer. -/
def UsesPeer (config : MessageLogConfig) (direction : Direction) : Prop :=
  if config.pattern direction ≠ [] then peerPlaceholder <:+: config.pattern direction
  else config.mode = .perPeer ∨ config.mode = .perPeerDirection

theorem replaceAll_of_not_infix (h : ¬placeholder <:+: a) :
    replaceAll placeholder text 0 a = a := by
  induction a with
  | nil => rfl
  | cons c cs ih =>
    rw [infix_cons_iff, not_or] at h
    rw [replaceAll, if_neg h.1, ih h.2]

theorem peerPlaceholder_eq : peerPlaceholder = ['\x7b', 'p', 'e', 'e', 'r', '\x7d'] := rfl

theorem label_send : Direction.label .send = ['s', 'e', 'n', 't'] := rfl

theorem label_recv : Direction.label .recv = ['r', 'e', 'c', 'e', 'i', 'v', 'e', 'd'] := rfl

/-- No rest of `{peer}` continues with the name of a direction. -/
theorem not_prefix_label (hsuffix : a <:+ peerPlaceholder) (hne : a ≠ []) (b : List Char) :
    ¬a <+: direction.label ++ b := by
  rw [peerPlaceholder_eq] at hsuffix
  simp only [suffix_cons_iff, suffix_nil] at hsuffix
  rcases hsuffix with rfl | rfl | rfl | rfl | rfl | rfl | rfl
  all_goals cases direction <;> simp_all [label_send, label_recv]

/-- What stands at the start of the expanded text stood there before. -/
theorem prefix_of_prefix_replaceAll (direction : Direction) (hsuffix : a <:+ peerPlaceholder)
    (h : a <+: replaceAll placeholder direction.label 0 b) : a <+: b := by
  induction a generalizing b with
  | nil => exact nil_prefix
  | cons c cs ih =>
    cases b with
    | nil => exact h
    | cons d ds =>
      rw [replaceAll] at h
      split at h
      · exact absurd h (not_prefix_label hsuffix (cons_ne_nil c cs) _)
      obtain ⟨rfl, hcs⟩ := cons_prefix_cons.mp h
      exact cons_prefix_cons.mpr ⟨rfl, ih ((suffix_cons c cs).trans hsuffix) hcs⟩

theorem infix_of_infix_label (h : peerPlaceholder <:+: direction.label ++ b) :
    peerPlaceholder <:+: b := by
  rw [peerPlaceholder_eq] at h ⊢
  cases direction <;> simpa [infix_cons_iff, label_send, label_recv] using h

/-- Putting in the direction makes no new place for the peer. -/
theorem infix_of_infix_replaceAll (placeholder : List Char) (direction : Direction) (skip : Nat)
    (h : peerPlaceholder <:+: replaceAll placeholder direction.label skip a) :
    peerPlaceholder <:+: a := by
  induction a generalizing skip with
  | nil => exact h
  | cons c cs ih =>
    cases skip with
    | succ skip => exact (ih skip h).trans (suffix_cons c cs).isInfix
    | zero =>
      rw [replaceAll] at h
      split at h
      · exact (ih _ (infix_of_infix_label h)).trans (suffix_cons c cs).isInfix
      next hkeep =>
        rcases infix_cons_iff.mp h with hprefix | hrest
        · have hwhole : peerPlaceholder <+: replaceAll placeholder direction.label 0 (c :: cs) := by
            rwa [replaceAll, if_neg hkeep]
          exact (prefix_of_prefix_replaceAll direction suffix_rfl hwhole).isInfix
        · exact (ih 0 hrest).trans (suffix_cons c cs).isInfix

theorem resolveFileKey_of_not_usesPeer (h : ¬UsesPeer config direction) (p q : List Char) :
    resolveFileKey config direction p = resolveFileKey config direction q := by
  unfold UsesPeer at h
  unfold resolveFileKey
  split at h
  next hpattern =>
    have hfree := mt (infix_of_infix_replaceAll directionPlaceholder direction 0) h
    rw [if_pos hpattern, if_pos hpattern, expandFilename, expandFilename,
      replaceAll_of_not_infix hfree, replaceAll_of_not_infix hfree]
  next hpattern =>
    rw [if_neg hpattern, if_neg hpattern]
    cases hmode : config.mode <;> simp_all

theorem resolveFileKey_congr {p q : List Char} (h : sanitizeForFilename p = sanitizeForFilename q) :
    resolveFileKey config direction p = resolveFileKey config direction q := by
  simp only [resolveFileKey, expandFilename, h]

/-! ## Entries of the directory -/

/-- The text is the name of an entry of the directory: it has no separator, and it is neither empty
nor one of the two names for the directory itself and the one above it. -/
def NamesEntry (key : List Char) : Prop := Plain key ∧ key ≠ [] ∧ key ≠ ['.'] ∧ key ≠ ['.', '.']

instance NamesEntry.instDecidable (key : List Char) : Decidable (NamesEntry key) :=
  inferInstanceAs (Decidable (_ ∧ _))

theorem namesEntry_iff {key : List Char} (h : Plain key) :
    NamesEntry key ↔ ¬key <+ ['.', '.'] := by
  unfold NamesEntry
  rw [and_iff_right h]
  constructor
  · rintro ⟨hnil, hone, htwo⟩ hsub
    obtain ⟨n, hn, rfl⟩ := sublist_replicate_iff.mp (show key <+ replicate 2 '.' from hsub)
    rcases n with _ | _ | _ | n
    · exact hnil rfl
    · exact hone rfl
    · exact htwo rfl
    · omega
  · intro hsub
    refine ⟨?_, ?_, ?_⟩ <;> rintro rfl <;> exact hsub (by decide)

/-- Putting in more text keeps all characters. -/
theorem sublist_replaceAll (placeholder : List Char) (skip : Nat) (a : List Char)
    (h : b <+ text) : replaceAll placeholder b skip a <+ replaceAll placeholder text skip a := by
  induction a generalizing skip with
  | nil => exact Sublist.slnil
  | cons c cs ih =>
    cases skip with
    | succ skip => exact ih skip
    | zero =>
      simp only [replaceAll]
      split
      · exact h.append (ih _)
      · exact (ih 0).cons_cons c

theorem sublist_resolveFileKey (config : MessageLogConfig) (direction : Direction)
    (peerName : List Char) :
    resolveFileKey config direction [] <+ resolveFileKey config direction peerName := by
  have hpeer : sanitizeForFilename [] <+ sanitizeForFilename peerName := nil_sublist _
  have hends : ∀ x y : List Char, x ++ sanitizeForFilename [] ++ y
      <+ x ++ sanitizeForFilename peerName ++ y :=
    fun x y => ((Sublist.refl x).append hpeer).append (Sublist.refl y)
  unfold resolveFileKey
  split
  · exact sublist_replaceAll _ 0 _ hpeer
  · cases config.mode with
    | combined | separateDirection => exact Sublist.refl _
    | perPeer => exact hends _ _
    | perPeerDirection =>
      exact ((hends _ _).append (Sublist.refl _)).append (Sublist.refl _)

theorem namesEntry_of_mode (hconfig : config.Plain) (h : config.pattern direction = [])
    (peerName : List Char) : NamesEntry (resolveFileKey config direction peerName) := by
  have hplain : Plain (resolveFileKey config direction peerName) :=
    plain_resolveFileKey hconfig peerName
  rw [namesEntry_iff hplain]
  have hbar : '_' ∈ resolveFileKey config direction peerName := by
    rw [resolveFileKey, if_neg (by simpa using h)]
    cases config.mode <;> simp
  exact fun hsub => absurd (hsub.subset hbar) (by decide)

end Conduit.Transceiver.MessageLog
