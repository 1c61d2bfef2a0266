import Cadence.Command
import Cadence.Proofs.Port.Spec

/-!
# Notes take turns

A sampler knows which of its notes sound, so it ends each of them before it begins again. Each use of
a sampler keeps this, and leaves the channel of the other sampler alone.
-/

namespace Cadence

/-! ## One note -/

variable {sent more : List PortMessage} {channel note : Int}

theorem strokes_append (channel note : Int) (sent more : List PortMessage) :
    strokes channel note (sent ++ more) = strokes channel note sent ++ strokes channel note more := by
  rw [strokes, List.filter_append, List.map_append]
  rfl

theorem strokes_cons (channel note : Int) (m : PortMessage) (sent : List PortMessage) :
    strokes channel note (m :: sent) =
      if m.channel = channel ∧ m.note = note then m.begins :: strokes channel note sent
      else strokes channel note sent := by
  rw [strokes, List.filter_cons]
  split <;> simp_all [strokes]

theorem strokes_of_channel_ne (h : ∀ m ∈ more, m.channel ≠ channel) :
    strokes channel note more = [] := by
  rw [strokes, List.map_eq_nil_iff, List.filter_eq_nil_iff]
  intro m hm
  simp [h m hm]

theorem inTurn_nil : InTurn [] := ⟨by simp, .nil⟩

theorem InTurn.snoc {l : List Bool} {b : Bool} (h : InTurn l) (hlast : l.getLast? ≠ some b)
    (hfirst : l = [] → b = true) : InTurn (l ++ [b]) := by
  refine ⟨?_, h.2.append (List.isChain_singleton _) ?_⟩
  · cases l with
    | nil => simp [hfirst rfl]
    | cons c l => simpa using h.1
  · rintro c hc d hd rfl
    obtain rfl : b = c := by simpa using hd
    exact hlast hc

/-- A note that is over begins again. -/
theorem InTurn.begin {l : List Bool} (h : InTurn l) (hover : l.getLast? ≠ some true) :
    InTurn (l ++ [true]) := h.snoc hover fun _ => rfl

/-- A note that sounds ends. -/
theorem InTurn.finish {l : List Bool} (h : InTurn l) (hsounds : l.getLast? = some true) :
    InTurn (l ++ [false]) :=
  h.snoc (by simp [hsounds]) (by rintro rfl; cases hsounds)

/-- A note that began and is over at the end was ended after it began. -/
theorem noteOff_mem_of_over {before later : List PortMessage} {velocity : Int}
    (h : (strokes channel note (before ++ .noteOn channel note velocity :: later)).getLast? ≠
      some true) : .noteOff channel note ∈ later := by
  by_contra hnone
  -- without an end whatever comes later for this note begins it
  have hall : ∀ b ∈ strokes channel note later, b = true := by
    intro b hb
    obtain ⟨m, hkept, rfl⟩ := List.mem_map.mp hb
    obtain ⟨hm, hsame⟩ := List.mem_filter.mp hkept
    obtain ⟨rfl, rfl⟩ := of_decide_eq_true hsame
    cases m with
    | noteOn _ _ _ => rfl
    | noteOff _ _ => exact absurd hm hnone
  refine h ?_
  rw [strokes_append, strokes_cons, if_pos ⟨rfl, rfl⟩, List.getLast?_append_cons, List.getLast?_cons]
  cases hlast : (strokes channel note later).getLast? with
  | none => rfl
  | some b => rw [hall b (List.mem_of_getLast? hlast)]; rfl

/-! ## Messages -/

theorem transmit_of_possible {messages : List PortMessage} (h : ∀ m ∈ messages, m.isPossible) :
    PortMessage.transmit messages = (messages, none) := by
  induction messages with
  | nil => rfl
  | cons m ms ih =>
    obtain ⟨hm, hms⟩ := List.forall_mem_cons.mp h
    rw [PortMessage.transmit, if_pos hm, ih hms]

theorem isDataByte_iff {n : Int} : PortMessage.isDataByte n ↔ 0 ≤ n ∧ n ≤ 127 := by
  simp [PortMessage.isDataByte]

namespace Sampler

/-! ## Notes that sound -/

theorem mem_addNote {note other : Int} {notes : List Int} :
    other ∈ addNote note notes ↔ other = note ∨ other ∈ notes := by
  induction notes with
  | nil => simp [addNote]
  | cons n ns ih => grind [addNote]

theorem addNote_rising {note : Int} {notes : List Int} (h : notes.Pairwise (· < ·)) :
    (addNote note notes).Pairwise (· < ·) := by
  induction notes with
  | nil => simp [addNote]
  | cons n ns ih =>
    obtain ⟨hn, hns⟩ := List.pairwise_cons.mp h
    rw [addNote]
    split_ifs with hlow hsame
    · exact List.pairwise_cons.mpr ⟨by grind, h⟩
    · exact h
    · refine List.pairwise_cons.mpr ⟨fun m hm => ?_, ih hns⟩
      rcases mem_addNote.mp hm with rfl | hm
      · omega
      · exact hn m hm

/-- Every note that sounds was begun by a message, so a message can end it and begin it again. -/
def IsPossible (s : Sampler) : Prop :=
  ∀ note ∈ s.sounding, (0 ≤ note ∧ note ≤ 127) ∧ (0 ≤ s.velocity ∧ s.velocity ≤ 127)

theorem attempt_of_possible {s : Sampler} {messages : List PortMessage}
    (h : ∀ m ∈ messages, m.isPossible) (sounding : List Int) :
    s.attempt messages sounding = { sent := messages, sampler := { s with sounding } } := by
  rw [attempt, transmit_of_possible h]

/-- What a play sends for a note. -/
def playMessages (s : Sampler) (note : Int) : List PortMessage :=
  (if s.sounding.contains note then [.noteOff s.channel note] else []) ++
    [.noteOn s.channel note s.velocity]

/-- The numbers of a play that messages can carry. -/
def Carries (s : Sampler) (note : Int) : Prop :=
  (0 ≤ note ∧ note ≤ 127) ∧ (0 ≤ s.velocity ∧ s.velocity ≤ 127)

/-- A play fails without a trace, or it sends all of its messages. A note that must end first is one
that was begun, so nothing is wrong with it. -/
theorem play_cases {s : Sampler} (hs : s.IsPossible) (index : Int) :
    (∃ e, s.play index = { sent := [], sampler := s, error? := some e } ∧
      ∀ note, s.noteFor index = .ok note → ¬s.Carries note) ∨
    ∃ note, s.noteFor index = .ok note ∧ s.Carries note ∧ s.play index =
      { sent := s.playMessages note, sampler := { s with sounding := addNote note s.sounding } } := by
  cases hnote : s.noteFor index with
  | error e =>
    refine .inl ⟨e, ?_, by simp⟩
    rw [play, hnote]
  | ok note =>
    by_cases hcarries : s.Carries note
    · refine .inr ⟨note, rfl, hcarries, ?_⟩
      have hall : ∀ m ∈ s.playMessages note, m.isPossible := by
        intro m hm
        obtain ⟨hrange, hloud⟩ := hcarries
        rcases List.mem_append.mp hm with hm | hm
        · split at hm
          · rw [List.mem_singleton.mp hm]
            exact isDataByte_iff.mpr hrange
          · cases hm
        · rw [List.mem_singleton.mp hm]
          exact (Bool.and_eq_true _ _).mpr ⟨isDataByte_iff.mpr hrange, isDataByte_iff.mpr hloud⟩
      rw [play, hnote]
      exact attempt_of_possible hall _
    · refine .inl ⟨.dataRange, ?_, fun other hother => by rwa [← Except.ok.inj hother]⟩
      have hsilent : ¬s.sounding.contains note := by
        rw [List.contains_iff_mem]
        exact fun hmem => hcarries (hs note hmem)
      have hnot : ¬(PortMessage.noteOn s.channel note s.velocity).isPossible := by
        rw [PortMessage.isPossible, Bool.and_eq_true, isDataByte_iff, isDataByte_iff]
        exact hcarries
      rw [play, hnote]
      simp only [if_neg hsilent, List.nil_append, attempt, PortMessage.transmit, if_neg hnot]

theorem release_eq {s : Sampler} (hs : s.IsPossible) :
    s.release = { sent := s.sounding.map (.noteOff s.channel), sampler := { s with sounding := [] } } := by
  refine attempt_of_possible (fun m hm => ?_) []
  obtain ⟨note, hnote, rfl⟩ := List.mem_map.mp hm
  exact isDataByte_iff.mpr (hs note hnote).1

/-! ## One sampler -/

/-- The sampler knows what sounds on its channel. -/
structure Follows (s : Sampler) (sent : List PortMessage) : Prop where
  rising : s.sounding.Pairwise (· < ·)
  possible : s.IsPossible
  inTurn : ∀ note, InTurn (strokes s.channel note sent)
  sounding : ∀ note, note ∈ s.sounding ↔ (strokes s.channel note sent).getLast? = some true

theorem follows_new {channel velocity : Int} {notes? : Option (List Int)} {s : Sampler}
    (h : Sampler.new channel notes? velocity = .ok s) :
    s.Follows [] ∧ s.channel = channel ∧ s.velocity = velocity := by
  rw [Sampler.new] at h
  split at h
  · cases h
    exact ⟨⟨.nil, by simp [IsPossible], fun _ => inTurn_nil, by simp [strokes]⟩, rfl, rfl⟩
  · cases h

/-- Messages for another channel change nothing. -/
theorem Follows.elsewhere {s : Sampler} (h : s.Follows sent)
    (hmore : ∀ m ∈ more, m.channel ≠ s.channel) : s.Follows (sent ++ more) := by
  have hsame : ∀ note, strokes s.channel note (sent ++ more) = strokes s.channel note sent := by
    intro note
    rw [strokes_append, strokes_of_channel_ne hmore, List.append_nil]
  exact ⟨h.rising, h.possible, fun note => hsame note ▸ h.inTurn note,
    fun note => hsame note ▸ h.sounding note⟩

theorem strokes_playMessages (s : Sampler) (note other : Int) :
    strokes s.channel other (s.playMessages note) =
      if note = other then (if note ∈ s.sounding then [false] else []) ++ [true] else [] := by
  rw [playMessages, strokes_append]
  by_cases hsame : note = other
  · subst hsame
    by_cases hsounds : note ∈ s.sounding <;>
      simp [strokes, PortMessage.channel, PortMessage.note, PortMessage.begins, hsounds]
  · split <;> simp [strokes, PortMessage.channel, PortMessage.note, hsame]

theorem Follows.play {s : Sampler} (h : s.Follows sent) (index : Int) :
    (s.play index).sampler.Follows (sent ++ (s.play index).sent) := by
  rcases play_cases h.possible index with ⟨e, hplay, -⟩ | ⟨note, -, hcarries, hplay⟩ <;> rw [hplay]
  · rwa [List.append_nil]
  refine ⟨addNote_rising h.rising, fun other hother => ?_, fun other => ?_, fun other => ?_⟩
  · rcases mem_addNote.mp hother with rfl | hother
    · exact hcarries
    · exact h.possible other hother
  · simp only [strokes_append, strokes_playMessages]
    split_ifs with hsame hsounds
    · subst hsame
      rw [← List.append_assoc]
      exact ((h.inTurn note).finish ((h.sounding note).mp hsounds)).begin (by simp)
    · subst hsame
      exact (h.inTurn note).begin (mt (h.sounding note).mpr hsounds)
    · rw [List.append_nil]
      exact h.inTurn other
  · simp only [strokes_append, strokes_playMessages, mem_addNote]
    by_cases hsame : note = other
    · simp [hsame]
    · rw [if_neg hsame, List.append_nil, ← h.sounding other]
      simp [Ne.symm hsame]

theorem strokes_release (channel note : Int) (notes : List Int) :
    strokes channel note (notes.map (.noteOff channel)) = List.replicate (notes.count note) false := by
  induction notes with
  | nil => rfl
  | cons n ns ih =>
    rw [List.map_cons, strokes_cons, ih, List.count_cons]
    by_cases hsame : n = note <;>
      simp [PortMessage.channel, PortMessage.note, PortMessage.begins, hsame, List.replicate_succ]

theorem Follows.release {s : Sampler} (h : s.Follows sent) :
    s.release.sampler.Follows (sent ++ s.release.sent) := by
  have hnodup : s.sounding.Nodup := h.rising.imp Int.ne_of_lt
  have hover : ∀ note, strokes s.channel note (sent ++ s.sounding.map (.noteOff s.channel)) =
      strokes s.channel note sent ++ if note ∈ s.sounding then [false] else [] := by
    intro note
    rw [strokes_append, strokes_release, hnodup.count]
    split <;> rfl
  rw [release_eq h.possible]
  refine ⟨.nil, by simp [IsPossible], fun note => ?_, fun note => ?_⟩ <;> simp only [hover]
  · split_ifs with hsounds
    · exact (h.inTurn note).finish ((h.sounding note).mp hsounds)
    · rw [List.append_nil]
      exact h.inTurn note
  · split_ifs with hsounds
    · simp
    · rw [List.append_nil, ← h.sounding note]
      simp [hsounds]

/-- A use of a sampler stays on its channel and is as loud as it. -/
structure IsUsed (s : Sampler) (a : Attempt) : Prop where
  channel : a.sampler.channel = s.channel
  velocity : a.sampler.velocity = s.velocity
  own : ∀ m ∈ a.sent, m.channel = s.channel
  loud : ∀ channel note velocity, .noteOn channel note velocity ∈ a.sent → velocity = s.velocity

theorem play_isUsed {s : Sampler} (hs : s.IsPossible) (index : Int) : s.IsUsed (s.play index) := by
  rcases play_cases hs index with ⟨e, hplay, -⟩ | ⟨note, -, -, hplay⟩ <;> rw [hplay]
  · exact ⟨rfl, rfl, by simp, by simp⟩
  · refine ⟨rfl, rfl, fun m hm => ?_, fun channel other velocity hm => ?_⟩
    all_goals
      simp only [playMessages, List.mem_append, List.mem_singleton] at hm
      rcases hm with hm | hm
      · split at hm <;> simp_all [PortMessage.channel]
      · simp_all [PortMessage.channel]

theorem release_isUsed {s : Sampler} (hs : s.IsPossible) : s.IsUsed s.release := by
  rw [release_eq hs]
  refine ⟨rfl, rfl, fun m hm => ?_, by simp⟩
  obtain ⟨note, -, rfl⟩ := List.mem_map.mp hm
  rfl

end Sampler

namespace Rig

/-! ## Two samplers -/

variable {rig : Rig}

theorem sampler_after (rig : Rig) (a : Sampler.Attempt) (voice other : Voice) :
    (rig.after a voice).rig.sampler other = if other = voice then a.sampler else rig.sampler other := by
  cases voice <;> cases other <;> rfl

theorem after_sent (rig : Rig) (a : Sampler.Attempt) (voice : Voice) :
    (rig.after a voice).sent = a.sent := by
  cases voice <;> rfl

theorem after_error? (rig : Rig) (a : Sampler.Attempt) (voice : Voice) :
    (rig.after a voice).error? = a.error? := by
  cases voice <;> rfl

/-- Both samplers know what sounds, and neither sends on the channel of the other. -/
structure Follows (rig : Rig) (sent : List PortMessage) : Prop where
  each : ∀ voice, (rig.sampler voice).Follows sent
  apart : ∀ voice other, voice ≠ other → (rig.sampler voice).channel ≠ (rig.sampler other).channel
  loud : ∀ voice, (rig.sampler voice).velocity ≠ 0
  own : ∀ m ∈ sent, ∃ voice, m.channel = (rig.sampler voice).channel
  audible : ∀ channel note velocity, .noteOn channel note velocity ∈ sent → velocity ≠ 0

/-- Using one sampler is all the same to the other. -/
theorem Follows.after (h : rig.Follows sent) {voice : Voice} {a : Sampler.Attempt}
    (hused : (rig.sampler voice).IsUsed a) (hkeeps : a.sampler.Follows (sent ++ a.sent)) :
    (rig.after a voice).rig.Follows (sent ++ (rig.after a voice).sent) := by
  have hchannel : ∀ other, ((rig.after a voice).rig.sampler other).channel =
      (rig.sampler other).channel := by
    intro other
    rw [sampler_after]
    split_ifs with hsame
    · rw [hsame, hused.channel]
    · rfl
  rw [after_sent]
  refine ⟨fun other => ?_, fun one other hne => ?_, fun other => ?_, fun m hm => ?_,
    fun channel note velocity hm => ?_⟩
  · rw [sampler_after]
    split_ifs with hsame
    · exact hkeeps
    · exact (h.each other).elsewhere fun m hm => hused.own m hm ▸ h.apart voice other (Ne.symm hsame)
  · rw [hchannel, hchannel]
    exact h.apart one other hne
  · rw [sampler_after]
    split_ifs
    · rw [hused.velocity]
      exact h.loud voice
    · exact h.loud other
  · simp only [hchannel]
    rcases List.mem_append.mp hm with hm | hm
    · exact h.own m hm
    · exact ⟨voice, hused.own m hm⟩
  · rcases List.mem_append.mp hm with hm | hm
    · exact h.audible channel note velocity hm
    · rw [hused.loud channel note velocity hm]
      exact h.loud voice

theorem Follows.act (h : rig.Follows sent) (a : PortAction) :
    (rig.act a).rig.Follows (sent ++ (rig.act a).sent) := by
  cases a with
  | play voice index =>
    exact h.after (Sampler.play_isUsed (h.each voice).possible index) ((h.each voice).play index)
  | release voice =>
    exact h.after (Sampler.release_isUsed (h.each voice).possible) (h.each voice).release

/-- Any uses, whether they fail or not, leave both samplers knowing what sounds. -/
theorem Follows.tries (h : rig.Follows sent) (actions : List PortAction) :
    (rig.tries actions).2.Follows (sent ++ (rig.tries actions).1) := by
  induction actions generalizing rig sent with
  | nil => simpa [Rig.tries] using h
  | cons a rest ih =>
    rw [Rig.tries, ← List.append_assoc]
    exact ih (h.act a)

/-- Stopping at an error is not trying any further. -/
theorem acts_eq_tries (rig : Rig) (actions : List PortAction) :
    ∃ tried, tried <+: actions ∧ (rig.acts actions).sent = (rig.tries tried).1 ∧
      (rig.acts actions).rig = (rig.tries tried).2 := by
  induction actions generalizing rig with
  | nil => exact ⟨[], List.prefix_refl _, rfl, rfl⟩
  | cons a rest ih =>
    cases herror : (rig.act a).error? with
    | some e =>
      refine ⟨[a], ⟨rest, rfl⟩, ?_⟩
      simp only [acts, herror, Rig.tries, List.append_nil, and_self]
    | none =>
      obtain ⟨tried, hbegins, hsent, hrig⟩ := ih (rig.act a).rig
      refine ⟨a :: tried, List.cons_prefix_cons.mpr ⟨rfl, hbegins⟩, ?_⟩
      simp only [acts, herror, Rig.tries, hsent, hrig, and_self]

theorem Follows.acts (h : rig.Follows sent) (actions : List PortAction) :
    (rig.acts actions).rig.Follows (sent ++ (rig.acts actions).sent) := by
  obtain ⟨tried, -, hsent, hrig⟩ := rig.acts_eq_tries actions
  rw [hsent, hrig]
  exact h.tries tried

/-- No note of any channel begins or ends twice. -/
theorem Follows.inTurn (h : rig.Follows sent) (channel note : Int) :
    InTurn (strokes channel note sent) := by
  by_cases hvoice : ∃ voice, (rig.sampler voice).channel = channel
  · obtain ⟨voice, rfl⟩ := hvoice
    exact (h.each voice).inTurn note
  · rw [strokes_of_channel_ne]
    · exact inTurn_nil
    · rintro m hm rfl
      obtain ⟨voice, hchannel⟩ := h.own m hm
      exact hvoice ⟨voice, hchannel.symm⟩

theorem act_release (h : rig.Follows sent) (voice : Voice) :
    (rig.act (.release voice)).error? = none ∧
      (rig.act (.release voice)).sent =
        (rig.sampler voice).sounding.map (.noteOff (rig.sampler voice).channel) ∧
      ∀ other, ((rig.act (.release voice)).rig.sampler other).sounding =
        if other = voice then [] else (rig.sampler other).sounding := by
  rw [act, Sampler.release_eq (h.each voice).possible, after_error?, after_sent]
  refine ⟨rfl, rfl, fun other => ?_⟩
  rw [sampler_after]
  split_ifs <;> rfl

theorem Follows.inStep (h : rig.Follows sent) : rig.InStep sent where
  inTurn := h.inTurn
  audible := h.audible
  sounding voice := (h.each voice).sounding
  plays voice index := by
    rw [Rig.act, after_error?]
    rcases Sampler.play_cases (h.each voice).possible index with
      ⟨e, hplay, hno⟩ | ⟨note, hnote, hcarries, hplay⟩ <;> rw [hplay]
    · refine iff_of_false (by simp) ?_
      rintro ⟨note, hnote, hcarries⟩
      exact hno note hnote hcarries
    · exact iff_of_true rfl ⟨note, hnote, hcarries⟩
  fails voice index e herror := by
    rw [Rig.act, after_error?] at herror
    rw [Rig.act]
    rcases Sampler.play_cases (h.each voice).possible index with
      ⟨other, hplay, -⟩ | ⟨note, -, -, hplay⟩ <;> rw [hplay] at herror ⊢
    · cases herror
      cases voice <;> rfl
    · cases herror
  rising voice := (h.each voice).rising
  releases voice := by
    obtain ⟨herror, hsent, hsounding⟩ := act_release h voice
    exact ⟨herror, hsent, (hsounding voice).trans (if_pos rfl)⟩

theorem follows_new {channel channel' velocity velocity' : Int} {notes? notes'? : Option (List Int)}
    {instrument metronome : Sampler} (hi : Sampler.new channel notes? velocity = .ok instrument)
    (hm : Sampler.new channel' notes'? velocity' = .ok metronome) (hchannel : channel ≠ channel')
    (hvelocity : velocity ≠ 0) (hvelocity' : velocity' ≠ 0) :
    Follows ⟨instrument, metronome⟩ [] := by
  obtain ⟨hfirst, rfl, rfl⟩ := Sampler.follows_new hi
  obtain ⟨hsecond, rfl, rfl⟩ := Sampler.follows_new hm
  refine ⟨?_, ?_, ?_, by simp, by simp⟩
  · rintro (_ | _)
    · exact hfirst
    · exact hsecond
  · rintro (_ | _) (_ | _) hne
    · exact absurd rfl hne
    · exact hchannel
    · exact hchannel.symm
    · exact absurd rfl hne
  · rintro (_ | _)
    · exact hvelocity
    · exact hvelocity'

/-! ## Closing the port -/

theorem Follows.acts_release (h : rig.Follows sent) :
    (rig.acts [.release .metronome, .release .instrument]).error? = none ∧
      ∀ voice, ((rig.acts [.release .metronome, .release .instrument]).rig.sampler voice).sounding =
        [] := by
  obtain ⟨herror, hsent, hfirst⟩ := act_release h .metronome
  obtain ⟨herror', hsent', hsecond⟩ := act_release (h.act (.release .metronome)) .instrument
  simp only [Rig.acts, herror, herror', true_and]
  rintro (_ | _)
  · exact hsecond .instrument
  · exact (hsecond .metronome).trans (hfirst .metronome)

theorem leftQuiet_of_over
    (h : ∀ channel note, (strokes channel note sent).getLast? ≠ some true) :
    LeftQuiet (sent.map .send ++ [.close]) where
  closed := ⟨sent, rfl⟩
  ended before later channel note velocity heq := by
    have hsplit := congrArg (List.filterMap PortOperation.message?) heq
    have hsent : (sent.map PortOperation.send).filterMap PortOperation.message? = sent := by
      rw [List.filterMap_map]
      exact List.filterMap_some
    simp only [List.filterMap_append, hsent, List.filterMap_cons, PortOperation.message?,
      List.filterMap_nil, List.append_nil] at hsplit
    have hover := h channel note
    rw [hsplit] at hover
    obtain ⟨operation, hmem, hmessage⟩ := List.mem_filterMap.mp (noteOff_mem_of_over hover)
    cases operation with
    | send m => rwa [← Option.some.inj hmessage]
    | close => cases hmessage

/-- Whatever cues have sounded, nothing sounds once both samplers are released, and the port is
closed after that. -/
theorem Follows.leftQuiet (h : rig.Follows []) (cues : List Cue) :
    LeftQuiet (rig.session cues).1 := by
  have hplayed := h.acts (cues.filterMap Cue.action?)
  rw [List.nil_append] at hplayed
  obtain ⟨herror, hsilent⟩ := hplayed.acts_release
  have hreleased := hplayed.acts [.release .metronome, .release .instrument]
  simp only [session, herror]
  refine leftQuiet_of_over fun channel note hsounds => ?_
  by_cases hvoice : ∃ voice, ((((rig.acts (cues.filterMap Cue.action?)).rig.acts
      [.release .metronome, .release .instrument]).rig).sampler voice).channel = channel
  · obtain ⟨voice, rfl⟩ := hvoice
    rw [← (hreleased.each voice).sounding note, hsilent voice] at hsounds
    cases hsounds
  · rw [strokes_of_channel_ne] at hsounds
    · cases hsounds
    · rintro m hm rfl
      obtain ⟨voice, hchannel⟩ := hreleased.own m hm
      exact hvoice ⟨voice, hchannel.symm⟩

theorem standard_follows : standard.Follows [] :=
  follows_new (show Sampler.new 0 none 64 = .ok standard.instrument from rfl)
    (show Sampler.new 9 (some [77, 76]) 64 = .ok standard.metronome from rfl) (by decide) (by decide)
    (by decide)

end Rig

/-- Two samplers of one port, on channels of their own and with a velocity, are in step with what
they sent after any uses. A command that plays through a port leaves it quiet, also when an exception
ends it and only some cues have sounded. -/
theorem notes_are_begun_and_ended_in_turn :
    (∀ (channel channel' velocity velocity' : Int) (notes? notes'? : Option (List Int))
        (instrument metronome : Sampler) (actions : List PortAction),
      Sampler.new channel notes? velocity = .ok instrument →
      Sampler.new channel' notes'? velocity' = .ok metronome →
      channel ≠ channel' → velocity ≠ 0 → velocity' ≠ 0 →
      ((⟨instrument, metronome⟩ : Rig).tries actions).2.InStep
        ((⟨instrument, metronome⟩ : Rig).tries actions).1) ∧
    (∀ sounded : List Cue, LeftQuiet (Rig.standard.session sounded).1) ∧
    ∀ (c : Composition) (metronome : Bool) (tickers : Tickers) (start : Time)
        (pattern? : Option String) (port : String), ∃ operations,
      (Command.playComposition c metronome tickers start pattern? (some port)).ports =
        [⟨port, operations⟩] ∧ LeftQuiet operations := by
  refine ⟨?_, fun sounded => Rig.standard_follows.leftQuiet sounded, ?_⟩
  · intro channel channel' velocity velocity' notes? notes'? instrument metronome actions hi hm hchannel
      hvelocity hvelocity'
    have h := (Rig.follows_new hi hm hchannel hvelocity hvelocity').tries actions
    rw [List.nil_append] at h
    exact h.inStep
  · intro c metronome tickers start pattern? port
    refine ⟨_, ?_, Rig.standard_follows.leftQuiet
      (tickers.follow (c.play (metronome && true) start (pattern?.map .name)).1).1⟩
    rw [Command.playComposition]
    simp only [Option.isSome_some]
    split <;> rfl

/-- A note twice, a click, a click that there is no note for, and a release. -/
def sampleActions : List PortAction :=
  [.play .instrument 24, .play .metronome 0, .play .instrument 24, .play .metronome 5,
    .release .instrument]

theorem sample_notes_are_begun_and_ended_in_turn :
    Sampler.new 0 none 64 = .ok Rig.standard.instrument ∧
      Sampler.new 9 (some [77, 76]) 64 = .ok Rig.standard.metronome ∧ (0 : Int) ≠ 9 ∧ (64 : Int) ≠ 0 ∧
      (Rig.standard.tries sampleActions).1 =
        [.noteOn 0 48 64, .noteOn 9 77 64, .noteOff 0 48, .noteOn 0 48 64, .noteOff 0 48] ∧
      (Rig.standard.tries sampleActions).2.InStep (Rig.standard.tries sampleActions).1 ∧
      (Rig.standard.session [.play 24, .click 1, .play 24]).1 =
        [.send (.noteOn 0 48 64), .send (.noteOn 9 76 64), .send (.noteOff 0 48),
          .send (.noteOn 0 48 64), .send (.noteOff 9 76), .send (.noteOff 0 48), .close] ∧
      LeftQuiet (Rig.standard.session [.play 24, .click 1, .play 24]).1 :=
  have ⟨hturns, hquiet, _⟩ := notes_are_begun_and_ended_in_turn
  ⟨rfl, rfl, by decide, by decide, by decide,
    hturns 0 9 64 64 none (some [77, 76]) _ _ sampleActions rfl rfl (by decide) (by decide) (by decide),
    by decide, hquiet _⟩

end Cadence
