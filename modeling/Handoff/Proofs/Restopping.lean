import Handoff.Proofs.Echo

/-! Stop requests that reach a bridge after one of them has returned, from outside or from its
handler: neither side of the bridge does anything differently for them. -/
namespace Handoff

/-- A half of a stop request. -/
def Act.isStop : Act → Bool
  | .stop | .finishStop => true
  | .keep | .setAside | .releaseKept | .panic _ | .publish _ => false

def Handler.plain (h : Handler) : Handler := fun n r => (h n r).filter (!·.isStop)

/-- The link as far as anybody can tell. -/
def Link.plain (l : Link Channel) : Link Channel :=
  { l with
    feed := l.feed.plain
    past := l.past.filter (· ≠ .stopRequested) }

namespace Link

variable {es : List Event} {l : Link Channel}

@[simp] theorem feed_plain (l : Link Channel) : l.plain.feed = l.feed.plain := rfl

@[simp] theorem queue_plain (l : Link Channel) : l.plain.queue = l.queue := rfl

@[simp] theorem liveness_plain (l : Link Channel) : l.plain.liveness = l.liveness := rfl

theorem trace_plain (l : Link Channel) :
    l.plain.trace = l.trace.filter (· ≠ .stopRequested) := List.filter_reverse.symm

theorem plain_fed (hes : .stopRequested ∉ es) (l : Link Channel) (f : Channel) :
    (l.fed f es).plain = l.plain.fed f.plain es := by
  have hkeep : es.reverse.filter (· ≠ .stopRequested) = es.reverse :=
    List.filter_eq_self.mpr fun e he => by
      simpa using fun heq : e = .stopRequested => hes (heq ▸ List.mem_reverse.mp he)
  simp only [plain, fed, past_note, List.filter_append, hkeep]
  rfl

theorem plain_note (hes : .stopRequested ∉ es) (l : Link Channel) :
    (l.note es).plain = l.plain.note es := plain_fed hes l l.feed

theorem plain_publish (x : Publishing) (l : Link Channel) :
    (l.publish x).plain = l.plain.publish x := by
  have hpub : Feed.publish x l.plain.feed = _ := l.feed.publish_plain x
  have hes : .stopRequested ∉ (Feed.publish x l.feed).2 := fun hm => by
    cases Feed.publish_notes x l.feed _ hm
  simp only [publish, hpub]
  exact plain_fed hes l _

theorem plain_raise (hl : l.feed.Heard) : l.raise.plain = l.plain := by
  have hraise : Feed.raise l.feed = l.feed := hl.raise_eq
  simp [plain, raise, fed, hraise]

theorem plain_wake (hl : l.feed.Heard) : l.wake.plain = l.plain := by
  have hwake : (Feed.wake l.feed).plain = l.feed.plain := hl.plain_wake
  simp [plain, wake, hwake]

end Link

theorem Producer.step?_plain (p : Producer) (l : Link Channel) :
    p.step? l.plain = (p.step? l).map fun (p', l') => (p', l'.plain) := by
  have hquiet (rs : List Record) : .stopRequested ∉ Event.releasing rs :=
    Event.stopRequested_not_mem_releasing rs
  cases hp : p.place with
  | starting => simp [step?, hp, Link.plain_note]
  | fetching =>
    have henter : Feed.enter l.feed.plain = _ := l.feed.enter_plain
    rcases hf : l.feed.enter with ⟨f, _ | o, rs⟩ <;> rw [hf] at henter <;>
      replace hf : Feed.enter l.feed = _ := hf
    · simp [step?, hp, hf, henter, Link.plain_fed, hquiet]
    · simp [step?, hp, hf, henter, Link.plain_fed, Link.plain_note, hquiet]
  | waiting =>
    have hreceive : Feed.receive? l.feed.plain = _ := l.feed.receive?_plain
    rcases hf : l.feed.receive? with _ | ⟨f, o, rs⟩ <;> rw [hf] at hreceive <;>
      replace hf : Feed.receive? l.feed = _ := hf
    · simp [step?, hp, hf, hreceive]
    · simp [step?, hp, hf, hreceive, Link.plain_fed, hquiet]
  | pushing r =>
    rcases hq : l.queue.push? r with _ | ⟨ticket, q⟩
    · simp [step?, hp, hq, Link.plain_note]
    · simp [step?, hp, hq, Link.plain]
  | calling ticket =>
    rcases hq : l.queue.collect? ticket with _ | ⟨_ | e, q⟩
    · simp [step?, hp, hq]
    · simp [step?, hp, hq, Link.plain]
    · simp [step?, hp, hq, Link.plain_note]
      rfl
  | retiring exit =>
    have hretire : Feed.retire l.feed.plain = _ := l.feed.close_plain
    have hpanic : Feed.retirePanic? l.feed.plain = Feed.retirePanic? l.feed := rfl
    rcases hf : l.feed.close with ⟨f, rs⟩
    rw [hf] at hretire
    replace hf : Feed.retire l.feed = _ := hf
    simp [step?, hp, hf, hretire, hpanic, Link.plain_fed, hquiet]
  | marking exit =>
    simp [step?, hp, Link.plain_note]
    rfl
  | releasing exit =>
    have hfarewell : .stopRequested ∉ exit.farewell p.delivered ++ [.senderDropped] := by
      cases exit <;> simp [Exit.farewell]
    simp only [step?, hp, Option.map_some, ← Link.plain_note hfarewell]
    rfl
  | ended exit | aborted e => simp [step?, hp]

def Consumer.Place.plain : Consumer.Place → Consumer.Place
  | handling call isHeld acts => handling call isHeld (acts.filter (!·.isStop))
  | place => place

namespace Consumer

def plain (c : Consumer) : Consumer := { c with place := c.place.plain }

/-- The handler's next act is a half of a stop request. -/
def isStopping (c : Consumer) : Bool :=
  match c.place with
  | .handling _ _ (a :: _) => a.isStop
  | _ => false

variable {c : Consumer} {l : Link Channel}

theorem isStopping_of_handling {call : Call} {isHeld : Bool} {a : Act} {rest : List Act}
    (hp : c.place = .handling call isHeld (a :: rest)) : c.isStopping = a.isStop := by
  simp [isStopping, hp]

theorem act_plain (c : Consumer) (l : Link Channel) (call : Call) (isHeld : Bool) (rest : List Act)
    {a : Act} (ha : a.isStop = false) :
    c.plain.act l.plain call isHeld (rest.filter (!·.isStop)) a =
      ((c.act l call isHeld rest a).1.plain, (c.act l call isHeld rest a).2.plain) := by
  have hreleasing (rs : List Record) : (l.note (Event.releasing rs)).plain =
      l.plain.note (Event.releasing rs) :=
    Link.plain_note (Event.stopRequested_not_mem_releasing rs) l
  have hleftover : (l.note (leftover call isHeld)).plain = l.plain.note (leftover call isHeld) :=
    Link.plain_note (by cases isHeld <;> simp [leftover]) l
  cases a with
  | stop | finishStop => cases ha
  | keep | setAside => rfl
  | releaseKept =>
    simp only [act, hreleasing]
    rfl
  | panic p =>
    simp only [act, hleftover]
    rfl
  | publish x =>
    simp only [act, Link.plain_publish]
    rfl

theorem dropPart_plain (c : Consumer) (l : Link Channel) (part : Part) :
    c.plain.dropPart l.plain part = ((c.dropPart l part).1.plain, (c.dropPart l part).2.plain) := by
  cases part with
  | context =>
    have hcontext : c.plain.dropContext = c.dropContext.plain := by
      have hc : c.plain.context = c.context := rfl
      unfold dropContext
      rw [hc]
      split <;> rfl
    simp only [dropPart, hcontext]
  | handler =>
    have hnote : (l.note (Event.releasing c.kept ++ [.handlerDropped])).plain =
        l.plain.note (Event.releasing c.kept ++ [.handlerDropped]) :=
      Link.plain_note (by simp [Event.releasing]) l
    simp only [dropPart, hnote]
    rfl
  | receiver =>
    have hnote := Link.plain_note (Event.stopRequested_not_mem_releasing l.queue.dropReceiver.2)
      { l with queue := l.queue.dropReceiver.1 }
    simp only [dropPart, hnote]
    rfl

/-- The consumer cannot tell a stop request more, unless his handler is about to make one. -/
theorem step?_plain (h : Handler) (exit? : Option (Exit × Nat)) (hc : c.isStopping = false)
    (l : Link Channel) :
    c.plain.step? h.plain exit? l.plain =
      (c.step? h exit? l).map fun (c', l') => (c'.plain, l'.plain) := by
  have hnote {es : List Event} (hes : .stopRequested ∉ es) (l : Link Channel) :
      (l.note es).plain = l.plain.note es := Link.plain_note hes l
  have hplace {place : Place} (hp : c.place = place) : c.plain.place = place.plain :=
    congrArg Place.plain hp
  cases hp : c.place with
  | fresh | returning ticket | unwinding ticket | resolving v =>
    simp only [step?, hp, hplace hp, Place.plain, Option.map_some]
    rfl
  | receiving =>
    rcases hq : l.queue.take? with _ | ⟨call, q⟩
    · cases hs : l.queue.hasSender with
      | true => simp [step?, hp, hplace hp, Place.plain, hq, hs]
      | false =>
        simp only [step?, hp, hplace hp, Place.plain, Link.queue_plain, hq, hs]
        rfl
    · have hquiet : .stopRequested ∉ [Event.handling call.record] := by simp
      have htake := hnote hquiet { l with queue := q }
      simp only [step?, hp, hplace hp, Place.plain, Link.queue_plain, hq, Option.map_some, htake]
      rfl
  | handling call isHeld acts =>
    cases acts with
    | nil =>
      have hend : .stopRequested ∉ .handled call.record :: leftover call isHeld := by
        cases isHeld <;> simp [leftover]
      simp only [step?, hp, hplace hp, Place.plain, List.filter_nil, Option.map_some, hnote hend]
      rfl
    | cons a rest =>
      have ha : a.isStop = false := (isStopping_of_handling hp).symm.trans hc
      have hfilter : (a :: rest).filter (!·.isStop) = a :: rest.filter (!·.isStop) :=
        List.filter_cons_of_pos (by simp [ha])
      simp only [step?, hp, hplace hp, Place.plain, hfilter, Option.map_some,
        act_plain _ _ _ _ _ ha]
  | awaiting =>
    have hcontext : c.plain.context = c.context := rfl
    cases hctx : c.context <;>
      simp only [step?, hp, hplace hp, Place.plain, hcontext, hctx] <;> rfl
  | joining g =>
    rcases exit? with _ | ⟨exit, n⟩
    · simp only [step?, hp, hplace hp, Place.plain]
      rfl
    · have hquiet : .stopRequested ∉ [Event.joined (Completion.ofExit n g exit).isOk] := by simp
      have hjoined := hnote hquiet l
      simp only [step?, hp, hplace hp, Place.plain, Option.map_some, hjoined]
      rfl
  | leaving parts =>
    cases parts with
    | nil =>
      simp only [step?, hp, hplace hp, Place.plain]
      rfl
    | cons part rest =>
      simp only [step?, hp, hplace hp, Place.plain, dropPart_plain, Option.map_some]
      rfl
  | gone =>
    simp only [step?, hp, hplace hp, Place.plain]
    rfl

/-- A stop request more takes the handler to his next act, and nothing can be told from it. -/
theorem step_of_isStopping (h : Handler) (exit? : Option (Exit × Nat)) (hc : c.isStopping)
    (hl : l.feed.Heard) :
    ∃ c' l', c.step? h exit? l = some (c', l') ∧ c'.plain = c.plain ∧ l'.plain = l.plain := by
  unfold isStopping at hc
  split at hc
  next call isHeld a rest hp =>
    have hplace : c.place.plain = .handling call isHeld (rest.filter (!·.isStop)) := by
      simp [hp, Place.plain, hc]
    cases a with
    | stop =>
      refine ⟨{ c with place := .handling call isHeld (.finishStop :: rest) }, l.raise, ?_, ?_,
        Link.plain_raise hl⟩
      · simp only [step?, hp, act]
      · simp only [plain, hplace]
        rfl
    | finishStop =>
      refine ⟨{ c with place := .handling call isHeld rest }, l.wake, ?_, ?_, Link.plain_wake hl⟩
      · simp only [step?, hp, act]
      · simp only [plain, hplace]
        rfl
    | keep | setAside | releaseKept | panic p | publish x => cases hc
  next => cases hc

theorem lose?_plain (c : Consumer) : c.plain.lose? = c.lose?.map plain := by
  have hplace : c.plain.place = c.place.plain := rfl
  cases hp : c.place <;> simp only [lose?, hplace, hp, Place.plain] <;> rfl

theorem fst_step?_congr (h : Handler) (exit? : Option (Exit × Nat)) (c : Consumer)
    {l₁ l₂ : Link Channel} (hq : l₂.queue = l₁.queue) :
    (c.step? h exit? l₂).map (·.1) = (c.step? h exit? l₁).map (·.1) := by
  cases hp : c.place with
  | fresh | returning ticket | unwinding ticket | resolving v | gone => simp [step?, hp]
  | receiving =>
    rcases ht : l₁.queue.take? with _ | ⟨call, q⟩
    · cases hs : l₁.queue.hasSender <;> simp [step?, hp, hq, ht, hs]
    · simp [step?, hp, hq, ht]
  | handling call isHeld acts =>
    cases acts with
    | nil => simp [step?, hp]
    | cons a rest => cases a <;> simp [step?, hp, act]
  | awaiting => cases hctx : c.context <;> simp [step?, hp, hctx]
  | joining g => rcases exit? with _ | ⟨exit, n⟩ <;> simp [step?, hp]
  | leaving parts =>
    cases parts with
    | nil => simp [step?, hp]
    | cons part rest => cases part <;> simp [step?, hp, dropPart]

end Consumer

namespace Bridge

def plain (b : Bridge Channel) : Bridge Channel :=
  { b with
    link := b.link.plain
    consumer := b.consumer.plain
    wakes := 0 }

section Stopping

variable {σ : Type}

def isStopping (b : Bridge σ) : Label → Bool
  | .raise | .wake => true
  | .consume => b.consumer.isStopping
  | .produce | .publish _ | .loseConsumer | .letGo => false

/-- A stop request has returned. -/
def HasStopped (b : Bridge σ) : Prop := b.halfway < b.link.requests

/-- What a stop request leaves as it is. -/
structure Untouched (b b' : Bridge σ) : Prop where
  queue : b'.link.queue = b.link.queue
  producer : b'.producer = b.producer
  liveness : b'.link.liveness = b.link.liveness
  generation : b'.generation = b.generation
  context : b'.consumer.context = b.consumer.context
  signal : b'.consumer.signal = b.consumer.signal

theorem Untouched.refl (b : Bridge σ) : b.Untouched b := ⟨rfl, rfl, rfl, rfl, rfl, rfl⟩

theorem Untouched.trans {b₁ b₂ b₃ : Bridge σ} (h₁ : b₁.Untouched b₂) (h₂ : b₂.Untouched b₃) :
    b₁.Untouched b₃ :=
  ⟨h₂.queue.trans h₁.queue, h₂.producer.trans h₁.producer, h₂.liveness.trans h₁.liveness,
    h₂.generation.trans h₁.generation, h₂.context.trans h₁.context, h₂.signal.trans h₁.signal⟩

variable [Feed σ] {h : Handler} {b b' : Bridge σ} {label : Label}

theorem untouched_of_isStopping (hl : b.isStopping label) (hs : b.step? h label = some b') :
    b.Untouched b' := by
  cases (step?_eq_some_iff.mp hs).2 with
  | raise | wake => exact ⟨rfl, rfl, rfl, rfl, rfl, rfl⟩
  | consume hside =>
    replace hl : b.consumer.isStopping = true := hl
    cases hside with
    | @act call isHeld a rest hp =>
      rw [Consumer.isStopping_of_handling hp] at hl
      cases a with
      | stop | finishStop => exact ⟨rfl, rfl, rfl, rfl, rfl, rfl⟩
      | keep | setAside | releaseKept | panic p | publish x => cases hl
    | _ => simp_all [Consumer.isStopping]
  | produce | publish | loseConsumer | letGo => cases hl

theorem untouched_stop (h : Handler) (b : Bridge σ) : b.Untouched (b.stop h) := by
  rw [stop]
  cases hr : b.run? h [.raise, .wake] with
  | none => exact .refl b
  | some b' =>
    obtain ⟨next, hraise, hr⟩ := Option.bind_eq_some_iff.mp hr
    obtain ⟨last, hwake, hr⟩ := Option.bind_eq_some_iff.mp hr
    cases hr
    exact (untouched_of_isStopping rfl hraise).trans (untouched_of_isStopping rfl hwake)

end Stopping

variable {h : Handler} {b b' : Bridge Channel} {label : Label}

theorem exit?_plain (b : Bridge Channel) : b.plain.exit? = b.exit? := rfl

theorem abort?_plain (b : Bridge Channel) : b.plain.abort? = b.abort? := rfl

/-- Nobody but who stops can tell the difference. -/
theorem step?_plain (hl : b.isStopping label = false) :
    b.plain.step? h.plain label = (b.step? h label).map plain := by
  unfold step?
  rw [abort?_plain]
  split
  · rfl
  cases label with
  | produce =>
    simp only [produce?]
    cases hp : b.producer with
    | none => simp [plain, hp]
    | some p =>
      have hstep := p.step?_plain b.link
      have hp' : b.plain.producer = some p := hp
      have hlink : b.plain.link = b.link.plain := rfl
      rw [hp', hlink]
      simp only [Option.bind_eq_bind, Option.bind_some, hstep]
      cases p.step? b.link <;> rfl
  | consume =>
    have hstep := Consumer.step?_plain h b.exit? hl b.link
    have hconsumer : b.plain.consumer = b.consumer.plain := rfl
    have hlink : b.plain.link = b.link.plain := rfl
    simp only [consume?, exit?_plain, hconsumer, hlink, hstep]
    cases b.consumer.step? h b.exit? b.link <;> rfl
  | raise | wake => cases hl
  | publish x =>
    have hpub := Link.plain_publish x b.link
    simp only [Option.map_some, plain, hpub]
  | loseConsumer =>
    have hlose : b.plain.consumer.lose? = _ := b.consumer.lose?_plain
    simp only [hlose, Option.map_map]
    rfl
  | letGo => rfl

theorem plain_of_isStopping (hb : b.link.feed.Heard) (hl : b.isStopping label)
    (hs : b.step? h label = some b') : b'.plain = b.plain := by
  cases (step?_eq_some_iff.mp hs).2 with
  | raise | wake => simp [plain, Link.plain_raise hb, Link.plain_wake hb]
  | @consume c l hside =>
    obtain ⟨c', l', hs', hc, hl⟩ := Consumer.step_of_isStopping h b.exit? hl hb
    rw [Consumer.step?_eq_some_iff.mpr hside] at hs'
    cases hs'
    simp only [plain, hc, hl]
  | produce | publish | loseConsumer | letGo => cases hl

theorem heard_step? (hb : b.link.feed.Heard) (hs : b.step? h label = some b') :
    b'.link.feed.Heard := by
  cases (step?_eq_some_iff.mp hs).2 with
  | produce hp hside => exact (hside.stirs hp).heard hb
  | consume hside => exact hb.change hside.change
  | raise => exact hb.change .raise
  | wake => exact hb.change .wake
  | publish x => exact hb.change (.take (Channel.takes_publish _ x))
  | loseConsumer | letGo => exact hb

end Bridge

namespace Supplied

def plain (m : Supplied Channel) : Supplied Channel := { m with bridge := m.bridge.plain }

def isStopping {σ : Type} (m : Supplied σ) : Label → Bool
  | .bridge label => m.bridge.isStopping label
  | .supply _ => false

/-- What is done in a run besides requesting stops. -/
def deeds {σ : Type} [Feed σ] [Stock σ] (h : Handler) (m : Supplied σ) : List Label → List Label
  | [] => []
  | label :: rest =>
    let more := ((m.step? h label).map fun next => next.deeds h rest).getD []
    if m.isStopping label then more else label :: more

variable {h : Handler} {m m' : Supplied Channel} {label : Label} {labels : List Label}

theorem step?_plain (hl : m.isStopping label = false) :
    m.plain.step? h.plain label = (m.step? h label).map plain := by
  cases label with
  | bridge label =>
    have hstep : m.plain.bridge.step? h.plain label = _ := Bridge.step?_plain hl
    simp only [step?, hstep, Option.map_map]
    rfl
  | supply x =>
    have habort : m.plain.bridge.abort? = m.bridge.abort? := rfl
    have hsupply : m.plain.depot.supply? x = _ := m.depot.supply?_plain x
    simp only [step?, habort, hsupply]
    split
    · rfl
    · cases hd : m.depot.supply? x with
      | none => rfl
      | some d =>
        obtain ⟨es, hnoted, hes⟩ := Depot.notes_supply? hd
        replace hnoted : d.noted = es := hnoted
        have hquiet : .stopRequested ∉ d.noted := fun hm => by
          cases hes _ (hnoted ▸ hm)
        have hlink := Link.plain_fed hquiet m.bridge.link d.feed
        simp only [Option.map_some, plain, Bridge.plain, hlink]
        rfl

theorem plain_of_isStopping (hm : m.bridge.link.feed.Heard) (hl : m.isStopping label)
    (hs : m.step? h label = some m') : m'.plain = m.plain := by
  cases label with
  | bridge label =>
    obtain ⟨b, hb, rfl⟩ := Option.map_eq_some_iff.mp hs
    simp only [plain, Bridge.plain_of_isStopping hm hl hb]
  | supply x => cases hl

theorem heard_step? (hm : m.bridge.link.feed.Heard) (hs : m.step? h label = some m') :
    m'.bridge.link.feed.Heard := by
  cases label with
  | bridge label =>
    obtain ⟨b, hb, rfl⟩ := Option.map_eq_some_iff.mp hs
    exact Bridge.heard_step? hm hb
  | supply x =>
    obtain ⟨d, hd, -, rfl⟩ := step?_supply hs
    exact hm.change (.take (Depot.takes_supply? hd))

theorem heard_run? (hm : m.bridge.link.feed.Heard) (hr : m.run? h labels = some m') :
    m'.bridge.link.feed.Heard := by
  rw [run?_eq_foldlM] at hr
  exact foldlM_keeps (P := fun m : Supplied Channel => m.bridge.link.feed.Heard)
    (fun _ _ _ _ ha hs => heard_step? ha hs) hm hr

theorem deeds_cons (hs : m.step? h label = some m') (rest : List Label) :
    m.deeds h (label :: rest) =
      if m.isStopping label then m'.deeds h rest else label :: m'.deeds h rest := by
  simp [deeds, hs]

theorem deeds_append {xs : List Label} (hr : m.run? h xs = some m') (ys : List Label) :
    m.deeds h (xs ++ ys) = m.deeds h xs ++ m'.deeds h ys := by
  induction xs generalizing m with
  | nil =>
    cases hr
    rfl
  | cons x rest ih =>
    obtain ⟨next, hs, hr⟩ := Option.bind_eq_some_iff.mp hr
    rw [List.cons_append, deeds_cons hs, deeds_cons hs, ih hr]
    split <;> rfl

/-- A run in which stops are requested goes on as what else is done in it. -/
theorem run?_plain (hm : m.bridge.link.feed.Heard) (hr : m.run? h labels = some m') :
    m.plain.run? h.plain (m.deeds h labels) = some m'.plain := by
  induction labels generalizing m with
  | nil =>
    cases hr
    rfl
  | cons label rest ih =>
    obtain ⟨next, hs, hr⟩ := Option.bind_eq_some_iff.mp hr
    have hnext := ih (heard_step? hm hs) hr
    rw [deeds_cons hs]
    cases hl : m.isStopping label with
    | true => rwa [if_pos rfl, ← plain_of_isStopping hm hl hs]
    | false =>
      rw [if_neg Bool.false_ne_true]
      refine Option.bind_eq_some_iff.mpr ⟨next.plain, ?_, hnext⟩
      rw [step?_plain hl, hs, Option.map_some]

/-- The bridge has got past the stop requests that its handler was about to make. -/
def Hushed (h : Handler) (m : Supplied Channel) : Prop :=
  ∃ xs m', m.run? h xs = some m' ∧ m.deeds h xs = [] ∧ m'.plain = m.plain ∧
    m'.bridge.consumer.isStopping = false

theorem Hushed.of_step? (hm : m.bridge.link.feed.Heard) (hl : m.isStopping label)
    (hs : m.step? h label = some m') (hi : m'.Hushed h) : m.Hushed h := by
  obtain ⟨xs, last, hr, hdeeds, hplain, hlast⟩ := hi
  refine ⟨label :: xs, last, Option.bind_eq_some_iff.mpr ⟨m', hs, hr⟩, ?_,
    hplain.trans (plain_of_isStopping hm hl hs), hlast⟩
  rw [deeds_cons hs, if_pos hl, hdeeds]

theorem step?_consume_of_handling {call : Call} {isHeld : Bool} {a : Act} {rest : List Act}
    (ha : m.bridge.abort? = none)
    (hp : m.bridge.consumer.place = .handling call isHeld (a :: rest)) :
    m.step? h (.bridge .consume) = some { m with
      bridge := { m.bridge with
        consumer := (m.bridge.consumer.act m.bridge.link call isHeld rest a).1
        link := (m.bridge.consumer.act m.bridge.link call isHeld rest a).2 } } := by
  have hstep : m.bridge.step? h .consume = _ :=
    Bridge.step?_eq_some_iff.mpr ⟨ha, .consume (.act hp)⟩
  simp only [step?, hstep, Option.map_some]

theorem hushed_of_handling {call : Call} {isHeld : Bool} {acts : List Act}
    (hm : m.bridge.link.feed.Heard) (ha : m.bridge.abort? = none)
    (hp : m.bridge.consumer.place = .handling call isHeld acts) : m.Hushed h := by
  induction acts generalizing m with
  | nil => exact ⟨[], m, rfl, rfl, rfl, by simp [Consumer.isStopping, hp]⟩
  | cons a rest ih =>
    have hfinish {m : Supplied Channel} (hm : m.bridge.link.feed.Heard)
        (ha : m.bridge.abort? = none)
        (hp : m.bridge.consumer.place = .handling call isHeld (.finishStop :: rest)) :
        m.Hushed h := by
      have hl : m.isStopping (.bridge .consume) := Consumer.isStopping_of_handling hp
      have hs := step?_consume_of_handling (h := h) ha hp
      exact .of_step? hm hl hs (ih (heard_step? hm hs) ha rfl)
    cases a with
    | stop =>
      have hl : m.isStopping (.bridge .consume) := Consumer.isStopping_of_handling hp
      have hs := step?_consume_of_handling (h := h) ha hp
      exact .of_step? hm hl hs (hfinish (heard_step? hm hs) ha rfl)
    | finishStop => exact hfinish hm ha hp
    | keep | setAside | releaseKept | panic p | publish x =>
      exact ⟨[], m, rfl, rfl, rfl, Consumer.isStopping_of_handling hp⟩

theorem hushed (hm : m.bridge.link.feed.Heard) (ha : m.bridge.abort? = none) : m.Hushed h := by
  cases hc : m.bridge.consumer.isStopping with
  | false => exact ⟨[], m, rfl, rfl, rfl, hc⟩
  | true =>
    unfold Consumer.isStopping at hc
    split at hc
    next hp => exact hushed_of_handling hm ha hp
    next => cases hc

theorem abort?_of_step? (hs : m.step? h label = some m') : m.bridge.abort? = none := by
  cases label with
  | bridge label =>
    obtain ⟨b, hb, -⟩ := Option.map_eq_some_iff.mp hs
    exact (Bridge.step?_eq_some_iff.mp hb).1
  | supply x =>
    simp only [step?, Option.ite_none_left_eq_some] at hs
    simpa using hs.1

theorem isStopping_of_not {σ : Type} {a b : Supplied σ} (hl : a.isStopping label = false)
    (hb : b.bridge.consumer.isStopping = false) : b.isStopping label = false := by
  cases label with
  | bridge label =>
    cases label with
    | raise | wake => cases hl
    | consume => exact hb
    | produce | publish x | loseConsumer | letGo => rfl
  | supply x => rfl

/-- Whatever is done in a run can be done as well where only stop requests are made otherwise. -/
theorem run_of_plain {h' : Handler} {a b a' : Supplied Channel} (hh : h'.plain = h.plain)
    (ha : a.bridge.link.feed.Heard) (hb : b.bridge.link.feed.Heard) (hp : b.plain = a.plain)
    (hr : a.run? h labels = some a') :
    ∃ ys b', b.run? h' ys = some b' ∧ b.deeds h' ys = a.deeds h labels := by
  induction labels generalizing a b with
  | nil => exact ⟨[], b, rfl, rfl⟩
  | cons label rest ih =>
    obtain ⟨next, hs, hr⟩ := Option.bind_eq_some_iff.mp hr
    have hnext := heard_step? ha hs
    rw [deeds_cons hs]
    cases hl : a.isStopping label with
    | true =>
      rw [if_pos rfl]
      exact ih hnext hb (hp.trans (plain_of_isStopping ha hl hs).symm) hr
    | false =>
      rw [if_neg Bool.false_ne_true]
      have habort : b.bridge.abort? = none :=
        (congrArg (·.bridge.abort?) hp).trans (abort?_of_step? hs)
      obtain ⟨xs, c, hxs, hdeeds, hplain, hc⟩ := hushed (h := h') hb habort
      have hcl := isStopping_of_not hl hc
      have hstep := step?_plain (h := h') hcl
      rw [hh, hplain, hp, step?_plain hl, hs, Option.map_some] at hstep
      obtain ⟨d, hd, hsame⟩ := Option.map_eq_some_iff.mp hstep.symm
      have hheard := heard_run? hb hxs
      obtain ⟨ys, b', hys, hsuffix⟩ := ih hnext (heard_step? hheard hd) hsame hr
      refine ⟨xs ++ label :: ys, b', ?_, ?_⟩
      · rw [run?_append, hxs, Option.bind_some]
        exact Option.bind_eq_some_iff.mpr ⟨d, hd, hys⟩
      · rw [deeds_append hxs, hdeeds, deeds_cons hd, hcl, if_neg Bool.false_ne_true, hsuffix]
        rfl

/-- Two bridges that differ in stop requests from outside alone, of which the second has `n` more on
their way. -/
structure Apart (n : Nat) (a b : Supplied Channel) : Prop where
  plain : b.plain = a.plain
  consumer : b.bridge.consumer = a.bridge.consumer
  wakes : b.bridge.wakes = a.bridge.wakes + n
  producer : a.bridge.producer.isSome
  heard : a.bridge.link.feed.Heard
  heard' : b.bridge.link.feed.Heard

theorem apart_refl (hp : m.bridge.producer.isSome) (hm : m.bridge.link.feed.Heard) : m.Apart 0 m :=
  ⟨rfl, rfl, rfl, hp, hm, hm⟩

theorem outside_step? (hl : label ≠ .bridge .raise) (hl' : label ≠ .bridge .wake)
    (hs : m.step? h label = some m') : m'.bridge.wakes = m.bridge.wakes ∧
      m'.bridge.producer.isSome = m.bridge.producer.isSome := by
  cases label with
  | bridge label =>
    obtain ⟨b, hb, rfl⟩ := Option.map_eq_some_iff.mp hs
    cases (Bridge.step?_eq_some_iff.mp hb).2 with
    | produce hp => exact ⟨rfl, by rw [hp]; rfl⟩
    | raise => exact (hl rfl).elim
    | wake => exact (hl' rfl).elim
    | consume | publish | loseConsumer | letGo => exact ⟨rfl, rfl⟩
  | supply x =>
    obtain ⟨d, -, -, rfl⟩ := step?_supply hs
    exact ⟨rfl, rfl⟩

theorem consumer_step? {a b a' b' : Supplied Channel} (hc : b.bridge.consumer = a.bridge.consumer)
    (hq : b.bridge.link.queue = a.bridge.link.queue) (he : b.bridge.exit? = a.bridge.exit?)
    (ha : a.step? h label = some a') (hb : b.step? h label = some b') :
    b'.bridge.consumer = a'.bridge.consumer := by
  cases label with
  | bridge label =>
    obtain ⟨c, hsa, rfl⟩ := Option.map_eq_some_iff.mp ha
    obtain ⟨d, hsb, rfl⟩ := Option.map_eq_some_iff.mp hb
    replace hsa := (Bridge.step?_eq_some_iff.mp hsa).2
    replace hsb := (Bridge.step?_eq_some_iff.mp hsb).2
    cases hsa with
    | consume hs =>
      cases hsb with
      | consume hs' =>
        have heq := Consumer.fst_step?_congr h a.bridge.exit? a.bridge.consumer hq
        rw [hc, he] at hs'
        rw [Consumer.step?_eq_some_iff.mpr hs, Consumer.step?_eq_some_iff.mpr hs'] at heq
        exact Option.some.inj heq
    | loseConsumer hl =>
      cases hsb with
      | loseConsumer hl' =>
        rw [hc, hl] at hl'
        exact (Option.some.inj hl').symm
    | letGo =>
      cases hsb
      simp only [hc]
    | produce | raise | wake | publish =>
      cases hsb
      exact hc
  | supply x =>
    obtain ⟨d, -, -, rfl⟩ := step?_supply ha
    obtain ⟨d', -, -, rfl⟩ := step?_supply hb
    exact hc

namespace Apart

variable {n : Nat} {a b a' : Supplied Channel}

theorem abort? (hi : Apart n a b) : b.bridge.abort? = a.bridge.abort? :=
  congrArg (·.bridge.abort?) hi.plain

theorem raise (hi : Apart n a b) (ha : a.bridge.abort? = none) :
    ∃ b', b.step? h (.bridge .raise) = some b' ∧ Apart (n + 1) a b' := by
  have hsame : b.bridge.producer = a.bridge.producer := congrArg (·.bridge.producer) hi.plain
  have hp : b.bridge.producer.isSome := hsame ▸ hi.producer
  have hs : b.step? h (.bridge .raise) = _ :=
    congrArg (Option.map _) (Bridge.step?_eq_some_iff.mpr ⟨hi.abort?.trans ha, .raise hp⟩)
  refine ⟨_, hs, (plain_of_isStopping hi.heard' rfl hs).trans hi.plain, hi.consumer, ?_,
    hi.producer, hi.heard, heard_step? hi.heard' hs⟩
  change b.bridge.wakes + 1 = a.bridge.wakes + (n + 1)
  rw [hi.wakes, Nat.add_assoc]

theorem wake (hi : Apart (n + 1) a b) (ha : a.bridge.abort? = none) :
    ∃ b', b.step? h (.bridge .wake) = some b' ∧ Apart n a b' := by
  have hwakes := hi.wakes
  have hs : b.step? h (.bridge .wake) = _ :=
    congrArg (Option.map _)
      (Bridge.step?_eq_some_iff.mpr ⟨hi.abort?.trans ha, .wake (by omega)⟩)
  refine ⟨_, hs, (plain_of_isStopping hi.heard' rfl hs).trans hi.plain, hi.consumer, ?_,
    hi.producer, hi.heard, heard_step? hi.heard' hs⟩
  change b.bridge.wakes - 1 = a.bridge.wakes + n
  omega

/-- The first of them is asked to stop from outside as well, or goes on with such a request. -/
theorem outside (hi : Apart n a b) (hl : label = .bridge .raise ∨ label = .bridge .wake)
    (hs : a.step? h label = some a') {k : Nat}
    (hk : a.bridge.wakes + n = a'.bridge.wakes + k) : Apart k a' b := by
  have hstopping : a.isStopping label := by rcases hl with rfl | rfl <;> rfl
  have hplain := plain_of_isStopping hi.heard hstopping hs
  have hsame : a'.bridge.consumer = a.bridge.consumer ∧
      a'.bridge.producer = a.bridge.producer := by
    rcases hl with rfl | rfl <;> obtain ⟨c, hc, rfl⟩ := Option.map_eq_some_iff.mp hs <;>
      cases (Bridge.step?_eq_some_iff.mp hc).2 <;> exact ⟨rfl, rfl⟩
  exact ⟨hi.plain.trans hplain.symm, hi.consumer.trans hsame.1.symm, hi.wakes.trans hk,
    hsame.2 ▸ hi.producer, heard_step? hi.heard hs, hi.heard'⟩

theorem exists_step? (hi : Apart n a b) (hr : label ≠ .bridge .raise) (hw : label ≠ .bridge .wake)
    (hs : a.step? h label = some a') :
    ∃ b', b.step? h label = some b' ∧ b'.plain = a'.plain := by
  have hsame : b.isStopping label = a.isStopping label := by
    cases label with
    | bridge label =>
      cases label with
      | consume => exact congrArg Consumer.isStopping hi.consumer
      | produce | raise | wake | publish x | loseConsumer | letGo => rfl
    | supply x => rfl
  cases hl : a.isStopping label with
  | false =>
    have hstep := step?_plain (h := h) (hsame.trans hl)
    rw [hi.plain, step?_plain hl, hs, Option.map_some] at hstep
    exact Option.map_eq_some_iff.mp hstep.symm
  | true =>
    obtain rfl : label = .bridge .consume := by
      cases label with
      | bridge label => cases label <;> first | rfl | contradiction
      | supply x => cases hl
    obtain ⟨c, l, hc, -, -⟩ :=
      Consumer.step_of_isStopping h b.bridge.exit? (hsame.trans hl) hi.heard'
    have hs' : b.step? h (.bridge .consume) = _ :=
      congrArg (Option.map _) (Bridge.step?_eq_some_iff.mpr
        ⟨hi.abort?.trans (abort?_of_step? hs), .consume (Consumer.step?_eq_some_iff.mp hc)⟩)
    refine ⟨_, hs', (plain_of_isStopping hi.heard' (hsame.trans hl) hs').trans ?_⟩
    exact hi.plain.trans (plain_of_isStopping hi.heard hl hs).symm

theorem own (hi : Apart n a b) (hs : a.step? h label = some a') :
    ∃ b', b.step? h label = some b' ∧ Apart n a' b' := by
  have halive := abort?_of_step? hs
  by_cases hr : label = .bridge .raise
  · subst hr
    obtain ⟨b', hs', hi'⟩ := hi.raise (h := h) halive
    obtain ⟨c, hc, rfl⟩ := Option.map_eq_some_iff.mp hs
    cases (Bridge.step?_eq_some_iff.mp hc).2
    exact ⟨b', hs', hi'.outside (.inl rfl) hs (by simp; omega)⟩
  · by_cases hw : label = .bridge .wake
    · subst hw
      obtain ⟨c, hc, rfl⟩ := Option.map_eq_some_iff.mp hs
      obtain ⟨-, ⟨hpos⟩⟩ := Bridge.step?_eq_some_iff.mp hc
      have hi' : Apart (n + 1) _ b := hi.outside (.inr rfl) hs (by simp; omega)
      exact hi'.wake halive
    · obtain ⟨hwakes, hproducer⟩ := outside_step? hr hw hs
      obtain ⟨b', hs', hplain⟩ := hi.exists_step? hr hw hs
      obtain ⟨hwakes', -⟩ := outside_step? hr hw hs'
      have hqueue : b.bridge.link.queue = a.bridge.link.queue :=
        congrArg (·.bridge.link.queue) hi.plain
      have hexit : b.bridge.exit? = a.bridge.exit? := congrArg (·.bridge.exit?) hi.plain
      refine ⟨b', hs', hplain, consumer_step? hi.consumer hqueue hexit hs hs', ?_,
        hproducer ▸ hi.producer, heard_step? hi.heard hs, heard_step? hi.heard' hs'⟩
      rw [hwakes', hwakes, hi.wakes]

end Apart

/-- Two bridges of which the same can be told. -/
structure Alike (a b : Supplied Channel) : Prop where
  /-- What was noted besides the stop requests is the same and in the same order: what the fetches
  have returned, what the publishers were answered, which records were released, when the handler
  was invoked and whether he returned, how the producer ended and was joined. -/
  noted : b.bridge.link.trace.filter (· ≠ .stopRequested) =
    a.bridge.link.trace.filter (· ≠ .stopRequested)
  hands : b.hands = a.hands
  records : b.bridge.link.feed.records = a.bridge.link.feed.records
  queue : b.bridge.link.queue = a.bridge.link.queue
  liveness : b.bridge.link.liveness = a.bridge.link.liveness
  producer : b.bridge.producer = a.bridge.producer
  invocations : b.bridge.consumer.invocations = a.bridge.consumer.invocations
  kept : b.bridge.consumer.kept = a.bridge.consumer.kept
  aside : b.bridge.consumer.aside = a.bridge.consumer.aside
  context : b.bridge.consumer.context = a.bridge.consumer.context
  panic? : b.bridge.consumer.panic? = a.bridge.consumer.panic?
  signal : b.bridge.consumer.signal = a.bridge.consumer.signal

theorem alike_of_plain {a b : Supplied Channel} (hp : b.plain = a.plain) : a.Alike b where
  noted := by
    have hlink : b.bridge.link.plain = a.bridge.link.plain := congrArg (·.bridge.link) hp
    rw [← Link.trace_plain, hlink, Link.trace_plain]
  hands := congrArg (·.hands) hp
  records := by
    have hfeed : b.bridge.link.feed.plain = a.bridge.link.feed.plain :=
      congrArg (·.bridge.link.feed) hp
    rw [← Channel.records_plain, hfeed, Channel.records_plain]
  queue := congrArg (·.bridge.link.queue) hp
  liveness := congrArg (·.bridge.link.liveness) hp
  producer := congrArg (·.bridge.producer) hp
  invocations := congrArg (·.bridge.consumer.invocations) hp
  kept := congrArg (·.bridge.consumer.kept) hp
  aside := congrArg (·.bridge.consumer.aside) hp
  context := congrArg (·.bridge.consumer.context) hp
  panic? := congrArg (·.bridge.consumer.panic?) hp
  signal := congrArg (·.bridge.consumer.signal) hp

/-- How a bridge goes on in which a stop request has returned, whatever requests still come. -/
structure Unaffected (m : Supplied Channel) (h : Handler) (m₀ : Supplied Channel) : Prop where
  /-- Wherever requests from outside go into a run, with both their halves or one, the run is
  possible as long as the process lives, and it goes on as it did. -/
  outside : ∀ xs ys more a a', m.run? h xs = some a → a.bridge.abort? = none →
    Inserts (.bridge .raise) (.bridge .wake) 0 xs ys → a.run? h more = some a' →
    ∃ b, m.run? h (ys ++ more) = some b ∧ a'.Alike b
  /-- A handler who stops more or less often, if it has come to the same with him: he can go through
  every run, -/
  handler : ∀ h' : Handler, h'.IsWhole → h'.plain = h.plain → ∀ before m',
    m₀.run? h' before = some m' → m'.bridge.HasStopped → m'.plain = m.plain →
    (∀ xs a, m.run? h xs = some a →
      ∃ ys b, m'.run? h' ys = some b ∧ m'.deeds h' ys = m.deeds h xs) ∧
    /- and whatever he stops and whatever is requested from outside, two runs in which the same is
    done otherwise tell the same. -/
    ∀ xs a ys b, m.run? h xs = some a → m'.run? h' ys = some b →
      m'.deeds h' ys = m.deeds h xs → a.Alike b

theorem heard_of_hasStopped {m₀ : Supplied Channel} {failed : Bool} (hm : Started failed m₀)
    (hw : h.IsWhole) (hr : m₀.run? h labels = some m) (hs : m.bridge.HasStopped) :
    m.bridge.link.feed.Heard := (hm.stoppable.run? hw hr).requested.heard hs

theorem Started.unaffected {m₀ : Supplied Channel} (hm : Started false m₀) (hw : h.IsWhole)
    (hr : m₀.run? h labels = some m) (hs : m.bridge.HasStopped) : m.Unaffected h m₀ := by
  have hheard := heard_of_hasStopped hm hw hr hs
  have hproducer : m.bridge.producer.isSome := by
    rcases hm.producer with ⟨hfailed, -⟩ | ⟨-, hi⟩
    · cases hfailed
    · obtain ⟨p, hp, -⟩ := tidy_of_run hi hr
      rw [hp]
      rfl
  refine ⟨fun xs ys more a a' ha halive hi hmore => ?_,
    fun h' hw' hh before m' hr' hs' hp => ⟨fun xs a ha => ?_, fun xs a ys b ha hb hsame => ?_⟩⟩
  · rw [run?_eq_foldlM] at ha hmore
    have hraise (n : Nat) (a b : Supplied Channel) (ha : a.bridge.abort? = none)
        (hi : Apart n a b) : ∃ b', b.step? h (.bridge .raise) = some b' ∧ Apart (n + 1) a b' :=
      hi.raise ha
    have hwake (n : Nat) (a b : Supplied Channel) (ha : a.bridge.abort? = none)
        (hi : Apart (n + 1) a b) : ∃ b', b.step? h (.bridge .wake) = some b' ∧ Apart n a b' :=
      hi.wake ha
    obtain ⟨b, k, hb, hk⟩ := hi.run (fun _ _ _ _ _ hi hs => hi.own hs) hraise hwake
      (fun _ _ _ hs => abort?_of_step? hs) (apart_refl hproducer hheard) ha halive
    obtain ⟨b', hb', hk'⟩ := foldlM_follows (fun _ _ _ _ hi hs => hi.own hs) hk hmore
    refine ⟨b', ?_, alike_of_plain hk'.plain⟩
    rw [run?_eq_foldlM, List.foldlM_append, hb]
    exact hb'
  · exact run_of_plain hh hheard (heard_of_hasStopped hm hw' hr' hs') hp ha
  · have hplain := run?_plain hheard ha
    have hplain' := run?_plain (heard_of_hasStopped hm hw' hr' hs') hb
    rw [hp, hh, hsame, hplain] at hplain'
    exact alike_of_plain (Option.some.inj hplain').symm

end Supplied

namespace Channel

/-- **To stop again changes nothing.** Once a stop request has returned, whether the channel is
driven by hand, or its stops, fetches and publications come in halves that mix, or a bridge runs
over it: further requests, wherever they come from and go in between, change nothing that is told by
a fetch, a publisher, a release, the handler or the completion. And in no state does a stop request
touch anything but the source. -/
theorem unaffected_of_stop :
    (∀ xs : List Session.Step, Session.did xs .stop → Session.Unaffected xs) ∧
    (∀ (labels : List Race.Label) (m : Race), Race.run? {} labels = some m → .wake ∈ labels →
      m.Unaffected) ∧
    (∀ m₀ : Supplied Channel, Supplied.Started false m₀ → ∀ h : Handler, h.IsWhole →
      ∀ (labels : List Supplied.Label) (m : Supplied Channel), m₀.run? h labels = some m →
        m.bridge.HasStopped → m.Unaffected h m₀) ∧
    ∀ (σ : Type) [Feed σ] (h : Handler) (b : Bridge σ),
      (∀ label b', b.isStopping label → b.step? h label = some b' → b.Untouched b') ∧
        b.Untouched (b.stop h) :=
  ⟨fun _ hx => Session.unaffected hx,
    fun _ _ hr hl => Race.unaffected (Race.heard_of_returned hr hl),
    fun _ hm _ hw _ _ hr hs => hm.unaffected hw hr hs,
    fun _ _ h b =>
      ⟨fun _ _ hl hs => Bridge.untouched_of_isStopping hl hs, Bridge.untouched_stop h b⟩⟩

/-- A request that overtakes the first one, between its halves, can be told: the fetch that waits
gets the end, and a record that is being published does not come before it. -/
example :
    (Race.run? {} [.check, .supply (.make 7), .raise, .supply (.send 0 ⟨7, 0⟩), .wake,
      .receive]).map (·.answers) = some [.record ⟨7, 0⟩] ∧
    (Race.run? {} [.check, .supply (.make 7), .raise, .raise, .wake, .supply (.send 0 ⟨7, 0⟩),
      .wake, .receive]).map (·.answers) = some [.endMarker] := by
  decide

def restoppingHandler : Handler := fun _ _ => [.stop, .stop, .publish (.publish 0 2), .stop]

/-- A record is published, and its handler has just stopped for the first time. -/
def onceStoppedLabels : List Supplied.Label :=
  [.bridge .consume, .bridge .produce, .supply (.ask (.publish 0 1))] ++
    List.replicate 3 (.bridge .produce) ++ List.replicate 3 (.bridge .consume)

/-- A channel is stopped while it holds a record; a stop returns while a fetch waits; a bridge is
stopped by its handler, who may be about to stop twice more, and from outside. -/
theorem unaffected_oneMade :
    (Session.did [.start, .publish 0 5, .stop] .stop ∧
      Session.Unaffected [.start, .publish 0 5, .stop]) ∧
    (∃ m, Race.run? {} [.check, .raise, .wake] = some m ∧ m.fetcher = .waiting ∧ m.Unaffected) ∧
    ∃ m m', (Supplied.begin { feed := {} } oneMadeDepot {} 0).run? stoppingHandler
        onceStoppedLabels = some m ∧ m.bridge.HasStopped ∧
      m.Unaffected stoppingHandler (Supplied.begin { feed := {} } oneMadeDepot {} 0) ∧
      (Supplied.begin { feed := {} } oneMadeDepot {} 0).run? restoppingHandler
        onceStoppedLabels = some m' ∧ m'.bridge.HasStopped ∧ m'.plain = m.plain ∧ m' ≠ m ∧
      ∃ b, m.bridge.step? stoppingHandler .raise = some b ∧ m.bridge.Untouched b := by
  obtain ⟨hsession, hrace, hsupplied, hbridge⟩ := unaffected_of_stop
  have hdid : Session.did [.start, .publish 0 5, .stop] .stop :=
    ⟨[.start, .publish 0 5], [], rfl, by decide⟩
  have hwaiting : (Race.run? {} [.check, .raise, .wake]).map (·.fetcher) = some .waiting := by
    decide
  obtain ⟨m, hr, hm⟩ := Option.map_eq_some_iff.mp hwaiting
  have hd : Depot.supplyAll? { feed := ({} : Channel) } [.make 7] = some oneMadeDepot := by decide
  have hstart := Supplied.Started.created hd { feed := {} } {} 0
  have hcreated : (({ feed := oneMadeDepot.feed } : Source Channel).create {} 0
      oneMadeDepot.noted).failure?.isSome = false := by decide +kernel
  rw [hcreated] at hstart
  have hruns : ((Supplied.begin { feed := {} } oneMadeDepot {} 0).run? stoppingHandler
      onceStoppedLabels).bind (fun m => ((Supplied.begin { feed := {} } oneMadeDepot {} 0).run?
        restoppingHandler onceStoppedLabels).map fun m' =>
          (decide (m.bridge.halfway < m.bridge.link.requests),
            decide (m'.bridge.halfway < m'.bridge.link.requests), decide (m'.plain = m.plain),
            decide (m' = m), (m.bridge.step? stoppingHandler .raise).isSome)) =
      some (true, true, true, false, true) := by decide +kernel
  obtain ⟨a, ha, hruns⟩ := Option.bind_eq_some_iff.mp hruns
  obtain ⟨a', ha', hruns⟩ := Option.map_eq_some_iff.mp hruns
  simp only [Prod.mk.injEq, decide_eq_true_eq, decide_eq_false_iff_not] at hruns
  obtain ⟨hs, hs', hsame, hne, hraise⟩ := hruns
  obtain ⟨b, hb⟩ := Option.isSome_iff_exists.mp hraise
  refine ⟨⟨hdid, hsession _ hdid⟩, ⟨m, hr, hm, hrace _ m hr (by simp)⟩, a, a', ha, hs, ?_, ha', hs',
    hsame, hne, b, hb, (hbridge Channel stoppingHandler a.bridge).1 .raise b rfl hb⟩
  refine hsupplied _ hstart _ ?_ _ a ha hs
  intro n r
  simp [stoppingHandler]

end Channel

end Handoff
