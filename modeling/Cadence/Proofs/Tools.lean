import Cadence.Proofs.Document.OneBar
import Cadence.Proofs.Export.Frame
import Cadence.Proofs.Playback.Recording
import Cadence.Tools

/-!
# Tools on one text

Three tools read a text: one shows its timeline, one writes its scores, one plays it and shows the
recording. A text without a timeline is refused by all of them in the same words, and the recording has
the events of the timeline. Only a number with too many digits comes between them: it can be counted with,
but not shown.
-/

namespace Cadence

variable {t : Tree} {output : Path} {picks : Picks} {text : String} {c : Composition}

/-! ## Reading a reply -/

namespace Value

/-- The entry of a mapping with a name, nothing if there is none. -/
def field : Value → String → Value
  | map entries, name => (lookup entries name).getD null
  | _, _ => null

/-- The items of a list. -/
def items : Value → List Value
  | list items => items
  | _ => []

def IsSuccess (reply : Value) : Prop := reply.field "status" = Value.text "success"

def IsFailure (reply : Value) : Prop := reply.field "status" = Value.text "error"

/-- The time and the pitches of an entry. -/
def asEvent (entry : Value) : Value :=
  map [("time", entry.field "time"), ("pitches", entry.field "pitches")]

/-- The events of the timeline in a reply, pattern after pattern. -/
def timelineEvents (reply : Value) : List Value :=
  ((reply.field "composition").field "patterns").items.flatMap fun p =>
    (p.field "events").items.map asEvent

/-- Whether an entry of a log is an event. -/
def isEvent (entry : Value) : Bool :=
  match entry.field "callback" with
  | .text "event" => true
  | _ => false

/-- The events of the log in a reply. -/
def loggedEvents (reply : Value) : List Value :=
  ((reply.field "log").items.filter isEvent).map asEvent

theorem IsFailure.not_isSuccess {reply : Value} (h : reply.IsFailure) : ¬reply.IsSuccess := by
  intro hsuccess
  have hsame := h.symm.trans hsuccess
  simp at hsame

end Value

theorem Callback.log_append (clock : Bool) (as bs : List Callback) :
    log clock (as ++ bs) = log clock as ++ log clock bs := by
  simp [log]

/-- With the clock and without it, the events in a log are those that were heard. -/
theorem Callback.events_log (clock : Bool) (heard : List Callback) :
    ((log clock heard).filter Value.isEvent).map Value.asEvent =
      (events heard).map fun e => .map e.entries := by
  induction heard with
  | nil => rfl
  | cons cb heard ih =>
    have hone : ((log clock [cb]).filter Value.isEvent).map Value.asEvent =
        (events [cb]).map fun e => .map e.entries := by
      cases cb <;> cases clock <;> rfl
    rw [← List.singleton_append, log_append, List.filter_append, List.map_append, hone, ih,
      events_append, List.map_append]

theorem timelineEvents_timelineValue {reply : Value}
    (h : reply.field "composition" = Tool.timelineValue c) :
    reply.timelineEvents = (c.patterns.flatMap (·.events)).map fun e => .map e.entries := by
  have hpatterns : ((Tool.timelineValue c).field "patterns").items =
      c.patterns.map Tool.patternValue := rfl
  have hevents (p : Pattern) : ((Tool.patternValue p).field "events").items.map Value.asEvent =
      p.events.map fun e => .map e.entries := by
    show (p.events.map fun e => Value.map e.entries).map Value.asEvent = _
    rw [List.map_map]
    rfl
  rw [Value.timelineEvents, h, hpatterns, List.flatMap_map, List.map_flatMap]
  simp only [hevents]

/-! ## Numbers that can be shown -/

theorem isShort_ints {ns : List Int} (h : HasShortNumbers (.list (ns.map .int))) :
    ∀ n ∈ ns, Yaml.isShort n = true := by
  rw [hasShortNumbers_list, List.forall_mem_map] at h
  exact fun n hn => hasShortNumbers_int.mp (h n hn)

theorem isShort_event {e : Event} (h : HasShortNumbers (.map e.entries)) :
    (Callback.event e).IsShort := by
  have htime : HasShortNumbers (.list (e.time.numbers.map .int)) :=
    hasShortNumbers_map.mp h ("time", _) List.mem_cons_self
  have hpitches : HasShortNumbers (.list (e.pitches.map .int)) :=
    hasShortNumbers_map.mp h ("pitches", _) (List.mem_cons_of_mem _ List.mem_cons_self)
  intro n hn
  rcases List.mem_append.mp hn with hn | hn
  · exact isShort_ints htime n hn
  · exact isShort_ints hpitches n hn

/-- The numbers that a timeline shows of a pattern and its events. -/
theorem short_of_timelineValue (h : HasShortNumbers (Tool.timelineValue c)) :
    ∀ p ∈ c.patterns, Yaml.isShort p.signature.numerator = true ∧
      ∀ e ∈ p.events, (Callback.event e).IsShort := by
  intro p hp
  have hpatterns : HasShortNumbers (.list (c.patterns.map Tool.patternValue)) :=
    hasShortNumbers_map.mp h ("patterns", _) (by simp [Value.ofList])
  have hpattern : HasShortNumbers (Tool.patternValue p) :=
    hasShortNumbers_list.mp hpatterns _ (List.mem_map_of_mem hp)
  have hsignature : HasShortNumbers (Value.ints [p.signature.numerator, p.signature.denominator]) :=
    hasShortNumbers_map.mp hpattern ("signature", _) (by simp [Value.ints])
  have hevents : HasShortNumbers (.list (p.events.map fun e => .map e.entries)) :=
    hasShortNumbers_map.mp hpattern ("events", _) (by simp [Value.ofList])
  exact ⟨isShort_ints hsignature _ List.mem_cons_self, fun e he =>
    isShort_event (hasShortNumbers_list.mp hevents _ (List.mem_map_of_mem he))⟩

/-! ## A text without a timeline -/

namespace Tool

/-- The text that a request is about. -/
def text? : Tool → Option String
  | validate text | scores text | render text _ _ _ => some text
  | _ => none

theorem run_of_error {e : Error} {tool : Tool} (h : Composition.ofText text picks = .error e)
    (htool : tool.text? = some text) : tool.run t output picks = (.error e, t) := by
  cases tool with
  | validate text' =>
    obtain rfl := Option.some.inj htool
    simp [run, validateText, h, bind, Except.bind]
  | scores text' =>
    obtain rfl := Option.some.inj htool
    simp [run, exportText, h]
  | render text' start pattern? clock =>
    obtain rfl := Option.some.inj htool
    simp [run, renderText, h, bind, Except.bind]
  | chords | resolve | starter => cases htool

/-- The fields of a failure that do not depend on the tool. -/
def failureFields (e : Error) (message? : Option Name) : List (String × Value) :=
  [("status", .text "error")] ++ (e.kind?.map fun kind => ("error", .text kind)).toList ++
    (message?.map fun message => ("message", .ofName message)).toList ++ e.data

/-- Of one error the tools say the same, except whether the text is valid. -/
theorem field_failure (tool : Tool) (e : Error) (message? : Option Name) {name : String}
    (hname : name ≠ "valid") : (tool.failure e message?).field name =
      (Value.map (failureFields e message?)).field name := by
  have hverdict : ∃ verdict : List (String × Value), (∀ entry ∈ verdict, entry.1 = "valid") ∧
      tool.failure e message? = .map (failureFields e message? ++ verdict) := by
    unfold failure
    split
    · exact ⟨[("valid", .bool false)], by simp, rfl⟩
    · exact ⟨[], by simp, rfl⟩
  obtain ⟨verdict, hvalid, hfailure⟩ := hverdict
  have hnone : verdict.reverse.lookup name = none := by
    rw [List.lookup_eq_none_iff]
    intro entry hentry
    rw [hvalid entry (List.mem_reverse.mp hentry)]
    simpa using hname
  rw [hfailure, Value.field, Value.field, Value.lookup, Value.lookup, List.reverse_append,
    List.lookup_append, hnone, Option.none_or]

theorem isFailure_failure (tool : Tool) (e : Error) (message? : Option Name) :
    (tool.failure e message?).IsFailure := by
  have hdata : e.data.reverse.lookup "status" = none := by
    unfold Error.data
    split <;> rfl
  have hmessage : (message?.map fun m => ("message", Value.ofName m)).toList.reverse.lookup
      "status" = none := by
    cases message? <;> rfl
  have hkind : (e.kind?.map fun kind => ("error", Value.text kind)).toList.reverse.lookup
      "status" = none := by
    cases e.kind? <;> rfl
  rw [Value.IsFailure, field_failure tool e message? (by decide), failureFields, Value.field,
    Value.lookup]
  simp only [List.reverse_append, List.lookup_append, hdata, hmessage, hkind, Option.none_or]
  rfl

/-! ## A text with a timeline -/

theorem reply_of_error {e : Error} {tool : Tool} (h : tool.run t output picks = (.error e, t)) :
    tool.reply t output picks = (tool.failure e (some e.message), t) := by
  rw [reply, h]

theorem reply_validate (t : Tree) (output : Path) (hc : Composition.ofText text picks = .ok c)
    (hshort : HasShortNumbers (timelineValue c)) :
    ((validate text).reply t output picks).1.IsSuccess ∧
      ((validate text).reply t output picks).1.field "composition" = timelineValue c := by
  have hnone : Yaml.tooLong? (Yaml.numbers (timelineValue c)) = none :=
    tooLong?_eq_none_iff.mpr hshort
  simp only [reply, run, validateText, hc, hnone, bind, Except.bind, pure, Except.pure]
  exact ⟨rfl, rfl⟩

theorem reply_validate_of_long (t : Tree) (output : Path) (hc : Composition.ofText text picks = .ok c)
    (hlong : ¬HasShortNumbers (timelineValue c)) :
    ∃ e, (validate text).reply t output picks =
      ((validate text).failure (.tooLong e) (some e.message), t) := by
  obtain ⟨e, he⟩ := exists_tooLong hlong
  refine ⟨e, reply_of_error ?_⟩
  simp only [run, validateText, hc, he, bind, Except.bind]

theorem reply_scores {paths : List Path} {t' : Tree} (hc : Composition.ofText text picks = .ok c)
    (hexport : c.exportTo t output = (.ok paths, t')) :
    ((scores text).reply t output picks).1.IsSuccess := by
  simp only [reply, run, exportText, hc, hexport]
  rfl

/-- What a rendering shows of what is heard. -/
def recording (c : Composition) (clock : Bool) (heard : List Callback) : Value :=
  success [("name", .ofName c.name), ("events", .int (Callback.events heard).length),
    ("end_time", ((Callback.lastTime? heard).map fun t => .text t.text).getD .null),
    ("log", .list (Callback.log clock heard))]

/-- A rendering from the start succeeds if it is played to its end and everything that is heard can be
written. -/
theorem reply_render {cues : List Cue} {error? : Option PlayError} {clock : Bool} (t : Tree)
    (output : Path) (hc : Composition.ofText text picks = .ok c)
    (hplay : c.play false Time.start none = (cues, error?)) :
    ∃ reply, (render text "1.1.1" none clock).reply t output picks = (reply, t) ∧
      (reply.IsSuccess ↔ error? = none ∧ ∀ cb ∈ Cue.callbacks cues, cb.IsShort) ∧
      (reply.IsSuccess → reply = recording c clock (Cue.callbacks cues)) := by
  have hparse : Time.parse "1.1.1" = .ok Time.start := by decide
  have hrefused {e : Error}
      (hrun : (render text "1.1.1" none clock).run t output picks = (.error e, t))
      (hnot : ¬(error? = none ∧ ∀ cb ∈ Cue.callbacks cues, cb.IsShort)) :
      ∃ reply, (render text "1.1.1" none clock).reply t output picks = (reply, t) ∧
        (reply.IsSuccess ↔ error? = none ∧ ∀ cb ∈ Cue.callbacks cues, cb.IsShort) ∧
        (reply.IsSuccess → reply = recording c clock (Cue.callbacks cues)) := by
    have hfailed := (isFailure_failure (render text "1.1.1" none clock) e
      (some e.message)).not_isSuccess
    exact ⟨_, reply_of_error hrun, ⟨fun h => absurd h hfailed, fun h => absurd h hnot⟩,
      fun h => absurd h hfailed⟩
  cases error? with
  | some e =>
    refine hrefused (e := .play e) ?_ (by simp)
    simp only [run, renderText, hc, hparse, hplay, bind, Except.bind, Except.mapError]
  | none =>
    have hnumbers : (∀ cb ∈ Cue.callbacks cues, cb.IsShort) ↔
        ∀ n ∈ (Cue.callbacks cues).flatMap Callback.numbers, Yaml.isShort n = true :=
      List.forall_mem_flatMap.symm
    by_cases hshort : ∀ n ∈ (Cue.callbacks cues).flatMap Callback.numbers, Yaml.isShort n = true
    · have hnone := tooLong?_eq_none_iff.mpr hshort
      refine ⟨recording c clock (Cue.callbacks cues), ?_, ?_, fun _ => rfl⟩
      · simp only [reply, run, renderText, hc, hparse, hplay, hnone, bind, Except.bind, pure,
          Except.pure, Except.mapError]
        rfl
      · exact ⟨fun _ => ⟨rfl, hnumbers.mpr hshort⟩, fun _ => rfl⟩
    · obtain ⟨e, he⟩ := exists_tooLong hshort
      refine hrefused (e := .tooLong e) ?_ fun h => hshort (hnumbers.mp h.2)
      simp only [run, renderText, hc, hparse, hplay, he, bind, Except.bind, Except.mapError]

end Tool

/-! ## Agreement -/

theorem Document.compile_ne_nil {d : Document} {drawn : Nat} (h : (d.compile picks drawn).1 = .ok c) :
    c.patterns ≠ [] := by
  obtain ⟨ps, m, hps, hrun⟩ := Document.compile_ok h
  obtain ⟨qs, hqs, hlength, -⟩ := compilePatterns_spec d _ ps drawn hrun
  rw [hqs, List.nil_append]
  rintro rfl
  obtain rfl := List.length_eq_zero_iff.mp hlength.symm
  rw [Document.compile, hps] at h
  cases h

theorem Composition.ofText_ok (h : Composition.ofText text picks = .ok c) :
    ∃ d : Document, (d.compile picks).1 = .ok c := by
  unfold Composition.ofText at h
  cases hd : Document.ofText text with
  | error e =>
    rw [hd] at h
    cases h
  | ok d =>
    rw [hd] at h
    refine ⟨d, ?_⟩
    cases hcompiled : (d.compile picks).1 with
    | error x =>
      simp [hcompiled, Except.mapError, bind, Except.bind] at h
    | ok c' =>
      simp [hcompiled, Except.mapError, bind, Except.bind] at h
      rw [h]

/-- A request on a text is refused as it is elsewhere, and nothing changes. -/
def Tool.RefusesLike (tool : Tool) (t : Tree) (output : Path) (picks : Picks) (refusal : Value) :
    Prop :=
  ∃ reply, tool.reply t output picks = (reply, t) ∧ reply.IsFailure ∧
    ∀ name, name ≠ "valid" → reply.field name = refusal.field name

/-- A rendering has the events of a timeline, and ends with a bar of the last pattern, with no event
of it left. -/
structure RendersAs (c : Composition) (validated rendered : Value) : Prop where
  events : rendered.loggedEvents = validated.timelineEvents
  count : rendered.field "events" = .int validated.timelineEvents.length
  ends : ∃ last stop, c.patterns.getLast? = some last ∧
    rendered.field "end_time" = .text (Time.text stop) ∧ stop.IsBarEnd last.signature ∧
      ∀ e ∈ last.events, e.time ≤ stop

theorem refusesLike_of_error {e : Error} {tool : Tool}
    (h : Composition.ofText text picks = .error e) (htool : tool.text? = some text) (t : Tree)
    (output : Path) (other : Tool) :
    tool.RefusesLike t output picks (other.failure e (some e.message)) := by
  refine ⟨_, Tool.reply_of_error (Tool.run_of_error h htool), tool.isFailure_failure _ _, ?_⟩
  intro name hname
  rw [tool.field_failure _ _ hname, other.field_failure _ _ hname]

theorem field_error_tooLong (tool : Tool) (e : Yaml.TooLong) (message : Name) :
    (tool.failure (.tooLong e) (some message)).field "error" = .null := by
  rw [tool.field_failure _ _ (by decide)]
  rfl

/-- A recording shows the events of the timeline, and the time at which it ends. -/
theorem rendersAs_recording {validated : Value} {heard : List Callback} (clock : Bool)
    (hnonempty : c.patterns ≠ []) (hp : ∀ p ∈ c.patterns, p.IsPlayable) (h : c.IsRecorded heard)
    (htimeline : validated.field "composition" = Tool.timelineValue c) :
    RendersAs c validated (Tool.recording c clock heard) where
  events := by
    rw [timelineEvents_timelineValue htimeline, ← h.events]
    exact Callback.events_log clock heard
  count := by
    rw [timelineEvents_timelineValue htimeline, ← h.events, List.length_map]
    rfl
  ends := by
    obtain ⟨last, hlast⟩ : ∃ last, c.patterns.getLast? = some last :=
      ⟨_, List.getLast?_eq_some_getLast hnonempty⟩
    obtain ⟨hend, hover⟩ := Pattern.isOver_endBar (hp last (List.mem_of_getLast? hlast))
    have hshown : (Tool.recording c clock heard).field "end_time" =
        ((Callback.lastTime? heard).map fun t => .text t.text).getD .null := rfl
    rw [h.lastTime last hlast] at hshown
    exact ⟨last, _, hlast, hshown, hend, fun e he => le_of_lt (hover e he)⟩

/-- What is validated is rendered to its end, unless a pattern ends with a bar that cannot be shown. -/
theorem rendersAs_of_validated {validated : Value} (t : Tree) (output : Path)
    (hc : Composition.ofText text picks = .ok c) (hshort : HasShortNumbers (Tool.timelineValue c))
    (htimeline : validated.field "composition" = Tool.timelineValue c) :
    ∃ rendered, (Tool.render text "1.1.1" none false).reply t output picks = (rendered, t) ∧
      (rendered.IsSuccess ↔ ∀ p ∈ c.patterns, Yaml.isShort p.endBar = true) ∧
      (rendered.IsSuccess → RendersAs c validated rendered) := by
  obtain ⟨d, hcompile⟩ := Composition.ofText_ok hc
  have hplayable := Document.compile_hasTempo hcompile
  have hinOrder : ∀ p ∈ c.patterns, p.IsPlayable := fun p hp => (hplayable p hp).1
  have hnonempty := Document.compile_ne_nil hcompile
  have hshown := short_of_timelineValue hshort
  have hlogged : (∀ p ∈ c.patterns, p.IsLogged Time.start) ↔
      ∀ p ∈ c.patterns, Yaml.isShort p.endBar = true :=
    forall₂_congr fun p hp => Pattern.isLogged_start_iff (hinOrder p hp) (hshown p hp).1
  obtain ⟨cues, error?, hplay, hended, hrecorded⟩ :=
    Composition.play_spec hnonempty hplayable false
  obtain ⟨rendered, hreply, hiff, hrecording⟩ := Tool.reply_render t output hc hplay
  refine ⟨rendered, hreply, ?_, fun h => ?_⟩
  · rw [hiff, ← hlogged, ← hended]
    refine and_iff_left_of_imp fun hnone => ?_
    exact ((hrecorded hnone).isShort_iff hshown).mpr (hlogged.mp (hended.mp hnone))
  · rw [hrecording h]
    exact rendersAs_recording false hnonempty hinOrder (hrecorded (hiff.mp h).1) htimeline

/-- For every text and all picks: what validating refuses is refused by the other tools in the same
words, and changes nothing; what is validated is rendered to its end, with the events of the timeline.
Between them are only numbers that are too long to be shown: those of a timeline that compiles, and the
bar with which the clock ends. -/
theorem tools_agree_on_a_text (t : Tree) (output : Path) (text : String) (picks : Picks) :
    let validated := ((Tool.validate text).reply t output picks).1
    (validated.IsFailure →
      (validated.field "error" = .null ∧ ∃ c, Composition.ofText text picks = .ok c ∧
        ¬HasShortNumbers (Tool.timelineValue c)) ∨
      ∀ tool : Tool, tool.text? = some text → tool.RefusesLike t output picks validated) ∧
    (validated.IsSuccess → ∃ c rendered, Composition.ofText text picks = .ok c ∧
      validated.field "composition" = Tool.timelineValue c ∧
      (Tool.render text "1.1.1" none false).reply t output picks = (rendered, t) ∧
      (rendered.IsSuccess ↔ ∀ p ∈ c.patterns, Yaml.isShort p.endBar = true) ∧
      (rendered.IsSuccess → RendersAs c validated rendered)) := by
  intro validated
  cases hc : Composition.ofText text picks with
  | error e =>
    have hvalidated : validated = (Tool.validate text).failure e (some e.message) :=
      congrArg Prod.fst (Tool.reply_of_error (Tool.run_of_error hc rfl))
    rw [hvalidated]
    refine ⟨fun _ => .inr fun tool htool => refusesLike_of_error hc htool t output _, fun h => ?_⟩
    exact absurd h (Tool.isFailure_failure _ _ _).not_isSuccess
  | ok c =>
    by_cases hshort : HasShortNumbers (Tool.timelineValue c)
    · obtain ⟨hsuccess, htimeline⟩ := Tool.reply_validate t output hc hshort
      refine ⟨fun h => absurd hsuccess h.not_isSuccess, fun _ => ?_⟩
      obtain ⟨rendered, hrendered⟩ := rendersAs_of_validated t output hc hshort htimeline
      exact ⟨c, rendered, rfl, htimeline, hrendered⟩
    · obtain ⟨e, he⟩ := Tool.reply_validate_of_long t output hc hshort
      have hvalidated : validated = (Tool.validate text).failure (.tooLong e) (some e.message) :=
        congrArg Prod.fst he
      rw [hvalidated]
      refine ⟨fun _ => .inl ⟨field_error_tooLong _ e _, c, rfl, hshort⟩, fun h => ?_⟩
      exact absurd h (Tool.isFailure_failure _ _ _).not_isSuccess

/-! ## One event at the end of a bar -/

/-- The event is silent: its chord has no intervals. -/
def barComposition (bar : Nat) : Composition :=
  ⟨defaultCompositionName, [⟨defaultPatternName 0, 120, ⟨4, 4⟩, [⟨⟨bar, 4, 8⟩, []⟩]⟩]⟩

theorem compile_barDocument (before : Nat) (picks : Picks) :
    ((barDocument (before + 1)).compile picks).1 = .ok (barComposition (before + 1)) := by
  cbv

theorem ofText_of_barDocument {bar : Nat} (h : Document.ofText text = .ok (barDocument bar))
    (hpos : 1 ≤ bar) : Composition.ofText text picks = .ok (barComposition bar) := by
  obtain ⟨before, rfl⟩ := Nat.exists_eq_add_of_le' hpos
  simp only [Composition.ofText, h, compile_barDocument, Except.mapError, bind, Except.bind]

theorem short_barComposition {bar : Nat} (h : Yaml.isShort bar = true) :
    HasShortNumbers (Tool.timelineValue (barComposition bar)) := by
  have hnumbers : Yaml.numbers (Tool.timelineValue (barComposition bar)) = [120, 4, 4, bar, 4, 8] := rfl
  have hothers : [120, 4, 8].all Yaml.isShort = true := by decide
  simp only [List.all_cons, List.all_nil, Bool.and_eq_true, Bool.and_true] at hothers
  simp [HasShortNumbers, hnumbers, h, hothers]

theorem endBar_barComposition {bar : Nat} (p : Pattern) (hp : p ∈ (barComposition bar).patterns) :
    p.endBar = bar + 1 := by
  obtain rfl := List.mem_singleton.mp hp
  rfl

/-- No clock shows bar zero, so no tool takes a text with it; bar one is played to its end. -/
theorem tools_agree_on_bars_zero_and_one :
    ((Tool.validate (barText ['0'])).reply {} {} id).1.IsFailure ∧
      (∀ tool : Tool, tool.text? = some (barText ['0']) →
        tool.RefusesLike {} {} id ((Tool.validate (barText ['0'])).reply {} {} id).1) ∧
      ((Tool.validate (barText ['1'])).reply {} {} id).1.IsSuccess ∧
      ∃ rendered, (Tool.render (barText ['1']) "1.1.1" none false).reply {} {} id = (rendered, {}) ∧
        RendersAs (barComposition 1) ((Tool.validate (barText ['1'])).reply {} {} id).1 rendered := by
  have hzero : Composition.ofText (barText ['0']) id =
      .error (.compile (.unreachable ⟨0, 4, 8⟩ 0 "C")) := by
    have hread : Document.ofText (barText ['0']) = .ok (barDocument 0) := ofText_barText (by simp) rfl
    rw [Composition.ofText, hread]
    cbv
  have hone : Composition.ofText (barText ['1']) id = .ok (barComposition 1) :=
    ofText_of_barDocument (ofText_barText (by simp) rfl) (le_refl 1)
  have hfailure : ((Tool.validate (barText ['0'])).reply {} {} id).1.IsFailure := by
    rw [Tool.reply_of_error (Tool.run_of_error hzero rfl)]
    dsimp only
    exact Tool.isFailure_failure _ _ _
  obtain ⟨hsuccess, -⟩ := Tool.reply_validate {} {} hone (short_barComposition (by decide))
  refine ⟨hfailure, ?_, hsuccess, ?_⟩
  · rcases (tools_agree_on_a_text {} {} (barText ['0']) id).1 hfailure with ⟨-, c, hc, -⟩ | hrefused
    · rw [hzero] at hc
      cases hc
    · exact hrefused
  · obtain ⟨c, rendered, hc, -, hreply, hiff, hrenders⟩ :=
      (tools_agree_on_a_text {} {} (barText ['1']) id).2 hsuccess
    obtain rfl := Except.ok.inj (hone.symm.trans hc)
    have hrendered : rendered.IsSuccess := by
      rw [hiff]
      intro p hp
      rw [endBar_barComposition p hp]
      decide
    exact ⟨rendered, hreply, hrenders hrendered⟩

theorem not_short_barComposition {bar : Nat} (hlong : ¬Yaml.isShort bar = true) :
    ¬HasShortNumbers (Tool.timelineValue (barComposition bar)) := by
  intro hshort
  obtain ⟨-, hevents⟩ := short_of_timelineValue hshort _ List.mem_cons_self
  exact hlong (hevents _ List.mem_cons_self _ List.mem_cons_self)

/-- Nothing of a silent event is in a score, not even its bar. -/
theorem exportTo_barComposition (bar : Nat) :
    ∃ paths t', (barComposition bar).exportTo {} {} = (.ok paths, t') := by
  have hplain : Path.isPlainName defaultCompositionName = true ∧
      Path.isPlainName (defaultPatternName 0) = true := by decide
  have hencoded : (Score.encodeAll (barComposition bar)).isOk = true := by cbv
  obtain ⟨files, hscores⟩ : ∃ files, (barComposition bar).scores {} = .ok files :=
    Composition.exists_scores (by simp [Composition.fileNames, barComposition, hplain]) hencoded
  have hsound : Tree.IsSound {} := Tree.isSound_of_entries (by decide)
  have hleads : Tree.LeadsTo {} {} [] := ⟨by simp [Path.IsUsable], 0, Nat.zero_le _, .arrive⟩
  have hname : defaultCompositionName.utf8ByteSize ≤ Tree.nameLimit ∧
      (defaultPatternName 0 ++ ".mid").utf8ByteSize ≤ Tree.nameLimit := by decide
  refine Composition.exportTo_new hsound rfl hscores hname.1 (fun p hp => ?_) hleads rfl rfl
  obtain rfl := List.mem_singleton.mp hp
  exact hname.2

/-- The last bar that can be shown. -/
def lastShownBar : Nat := 10 ^ Yaml.Meaning.digitLimit - 1

theorem lastShownBar_succ : lastShownBar + 1 = 10 ^ Yaml.Meaning.digitLimit :=
  Nat.sub_add_cancel (Nat.one_le_pow Yaml.Meaning.digitLimit 10 (by decide))

/-- A bar with more digits than can be shown: its score is written, but not its timeline. The last bar
without: its timeline is shown, but not the clock, which goes on into the next bar. -/
theorem long_bars_part_the_tools :
    (((Tool.validate (barText (powerDigits 3600))).reply {} {} id).1.IsFailure ∧
      ((Tool.scores (barText (powerDigits 3600))).reply {} {} id).1.IsSuccess) ∧
    ((Tool.validate (barText (Text.digits lastShownBar))).reply {} {} id).1.IsSuccess ∧
      ¬((Tool.render (barText (Text.digits lastShownBar)) "1.1.1" none false).reply {} {}
        id).1.IsSuccess := by
  refine ⟨?_, ?_⟩
  · have hcompiled (n : Nat) : Composition.ofText (barText (powerDigits n)) id =
        .ok (barComposition (16 ^ n)) :=
      ofText_of_barDocument (ofText_powerDigits n) (Nat.one_le_pow n 16 (by decide))
    have hlong : ¬Yaml.isShort (16 ^ 3600 : Nat) = true := by
      rw [isShort_iff, Int.natAbs_natCast]
      decide +kernel
    constructor
    · obtain ⟨e, he⟩ := Tool.reply_validate_of_long {} {} (hcompiled 3600)
        (not_short_barComposition hlong)
      rw [he]
      dsimp only
      exact Tool.isFailure_failure _ _ _
    · obtain ⟨paths, t', hexport⟩ := exportTo_barComposition (16 ^ 3600)
      exact Tool.reply_scores (hcompiled 3600) hexport
  · have hshort : Yaml.isShort lastShownBar = true := by
      rw [isShort_iff, Int.natAbs_natCast, ← lastShownBar_succ]
      exact Nat.lt_add_one _
    have hnext : ¬Yaml.isShort (lastShownBar + 1 : Nat) = true := by
      rw [isShort_iff, Int.natAbs_natCast, lastShownBar_succ]
      exact lt_irrefl _
    have hpos : 1 ≤ lastShownBar := by
      have hlarge (n : Nat) (hn : n ≠ 0) : 1 < 10 ^ n := Nat.one_lt_pow hn (by decide)
      have hlimit : 1 < lastShownBar + 1 := by
        rw [lastShownBar_succ]
        exact hlarge _ (by decide)
      omega
    have hcompiled : Composition.ofText (barText (Text.digits lastShownBar)) id =
        .ok (barComposition lastShownBar) :=
      ofText_of_barDocument (ofText_digits hshort) hpos
    obtain ⟨hsuccess, htimeline⟩ :=
      Tool.reply_validate {} {} hcompiled (short_barComposition hshort)
    obtain ⟨rendered, hreply, hiff, -⟩ :=
      rendersAs_of_validated {} {} hcompiled (short_barComposition hshort) htimeline
    refine ⟨hsuccess, fun hrendered => hnext ?_⟩
    rw [hreply] at hrendered
    rw [← endBar_barComposition _ List.mem_cons_self]
    exact hiff.mp hrendered _ List.mem_cons_self

end Cadence
