import Intake.Proofs.Request.Feed
import Intake.Request.Pipeline

/-!
# Requests on a connection

A connection carries requests one behind the other, each a head and the body that the head announces.
Its bytes arrive in pieces. The caller keeps what has arrived since the last request ended, asks the
decoder for a head until one is complete, waits for the body, and goes on behind it, all with one decoder
and one request.

Whatever the pieces are and whenever the caller looks, it meets what was sent and nothing else: heads
as they are decoded alone, and bodies as soon as they are there, whatever is in them.
-/

namespace Intake.Request

open Bytes (Leads)

/-! ### The caller -/

/-- What the caller meets on a connection. -/
inductive Delivery where
  | head (consumed : Nat) (request : Request)
  | body (bytes : Bytes)
  | fault (fault : Fault)

structure Connection where
  decoder : Decoder := {}
  request : Request
  /-- What has arrived since the last request ended. -/
  buffer : Bytes := []
  /-- The length of the head whose body is waited for. -/
  awaited : Option Nat := none

namespace Connection

/-- What was met, and the connection afterwards. -/
structure Trace where
  deliveries : List Delivery
  connection : Connection

/-- Looks for a head, or for the body of the one that was found. -/
def look (c : Connection) : Trace :=
  match c.awaited with
  | none =>
    let answer := c.decoder.decode c.request c.buffer
    let c := { c with decoder := answer.decoder, request := answer.request }
    match answer.result with
    | .ok (.complete consumed) => ⟨[.head consumed answer.request], { c with awaited := some consumed }⟩
    | .ok (.incomplete _) => ⟨[], c⟩
    | .error fault => ⟨[.fault fault], c⟩
  | some consumed =>
    match c.request.body? c.buffer consumed with
    | none => ⟨[], c⟩
    | some body =>
      let buffer := c.buffer.drop (consumed + c.request.contentLength)
      ⟨[.body body], { c with buffer, awaited := none }⟩

inductive Action where
  | arrive (bytes : Bytes)
  | look

def Action.bytes : Action → Bytes
  | arrive bytes => bytes
  | look => []

/-- All bytes that arrive. -/
def arrivals (actions : List Action) : Bytes := actions.flatMap (·.bytes)

def Trace.act (t : Trace) : Action → Trace
  | .arrive bytes => { t with connection.buffer := t.connection.buffer ++ bytes }
  | .look =>
    let next := t.connection.look
    { next with deliveries := t.deliveries ++ next.deliveries }

/-- A new connection with a request that may have been used before, while bytes arrive and the caller
looks for what is there. -/
def run (r : Request) (actions : List Action) : Trace := actions.foldl .act ⟨[], { request := r }⟩

end Connection

/-! ### What is sent -/

/-- A request as it is sent. -/
structure Sent where
  head : Bytes
  body : Bytes

/-- The answer to a head alone, under the number of `r` and in an arena like that of `r`. -/
def Sent.answer (r : Request) (s : Sent) : Decoded :=
  (Decoder.decode {} r.blank s.head).relabel r.requestId

/-- What a head is decoded to alone. -/
def Sent.alone (r : Request) (s : Sent) : Request := (s.answer r).request

/-- The head is complete at its end, and announces the body. -/
structure Sent.Framed (r : Request) (s : Sent) : Prop where
  complete : (Decoder.decode {} r.blank s.head).result = .ok (.complete s.head.length)
  contentLength : (Decoder.decode {} r.blank s.head).request.contentLength = s.body.length

/-- The requests one behind the other. -/
def joined (sent : List Sent) : Bytes := sent.flatMap fun s => s.head ++ s.body

/-- What the caller meets of one request. -/
def Sent.deliveries (r : Request) (s : Sent) : List Delivery :=
  [.head s.head.length (s.alone r), .body s.body]

/-- What the caller can meet when the first `arrived` bytes are there. -/
def due (r : Request) (arrived : Nat) : List Sent → List Delivery
  | [] => []
  | s :: later =>
    if arrived < s.head.length then []
    else if arrived < s.head.length + s.body.length then [.head s.head.length (s.alone r)]
    else s.deliveries r ++ due r (arrived - (s.head.length + s.body.length)) later

section Due

variable (r : Request)

theorem joined_append (done left : List Sent) : joined (done ++ left) = joined done ++ joined left :=
  List.flatMap_append

theorem joined_cons (s : Sent) (left : List Sent) :
    joined (s :: left) = s.head ++ (s.body ++ joined left) := by
  rw [joined, List.flatMap_cons, List.append_assoc]
  rfl

theorem joined_concat (done : List Sent) (s : Sent) :
    joined (done ++ [s]) = joined done ++ (s.head ++ s.body) := by
  have hnil : joined [] = [] := rfl
  rw [joined_append, joined_cons, hnil, List.append_nil]

theorem due_append (done left : List Sent) (k : Nat) :
    due r ((joined done).length + k) (done ++ left) = done.flatMap (·.deliveries r) ++ due r k left := by
  induction done with
  | nil => rw [joined, List.flatMap_nil, List.length_nil, Nat.zero_add]; rfl
  | cons s done ih =>
      have hlength : (joined (s :: done)).length =
          s.head.length + s.body.length + (joined done).length := by
        rw [joined_cons, List.length_append, List.length_append, Nat.add_assoc]
      rw [hlength, List.cons_append, due, if_neg (by omega), if_neg (by omega), Nat.add_assoc _ _ k,
        Nat.add_sub_cancel_left, ih, List.flatMap_cons, List.append_assoc]

theorem due_joined (sent : List Sent) :
    due r (joined sent).length sent = sent.flatMap (·.deliveries r) := by
  have hall := due_append r sent [] 0
  rwa [List.append_nil, Nat.add_zero, due, List.append_nil] at hall

theorem length_due_le (k : Nat) (sent : List Sent) : (due r k sent).length ≤ 2 * sent.length := by
  induction sent generalizing k with
  | nil => exact Nat.zero_le _
  | cons s sent ih =>
      rw [due, List.length_cons]
      split
      · exact Nat.zero_le _
      split
      · simp only [List.length_cons, List.length_nil]
        omega
      · have hle := ih (k - (s.head.length + s.body.length))
        simp only [Sent.deliveries, List.length_append, List.length_cons, List.length_nil]
        omega

end Due

/-! ### One head -/

section Head

variable {r : Request} {s : Sent}

/-- A head that is complete at its end has its terminator there, and no other. -/
theorem Sent.Framed.leads (h : s.Framed r) : ∃ front, s.head = front ++ terminator ∧
    Leads front terminator s.head ∧ Decoder.decode {} r.blank s.head = readHead r.blank front := by
  have hcomplete := h.complete
  by_cases hin : terminator <:+: s.head
  · obtain ⟨front, hfront⟩ := Bytes.exists_leads hin
    have hanswer : Decoder.decode {} r.blank s.head = readHead r.blank front :=
      Decoder.decode_of_leads (Decoder.searched_start _) hfront
    rw [hanswer] at hcomplete
    have hlength := consumed_of_readHead hcomplete
    refine ⟨front, (hfront.occurs.eq_of_length ?_).symm, hfront, hanswer⟩
    rw [List.length_append, hlength]
  · rw [Decoder.decode_of_absent hin] at hcomplete
    cases hcomplete

theorem Sent.Framed.absent (h : s.Framed r) {buffer : Bytes} (hpre : buffer <+: s.head)
    (hshort : buffer.length < s.head.length) : ¬ terminator <:+: buffer := by
  intro hin
  obtain ⟨front, hhead, hleads, -⟩ := h.leads
  obtain ⟨earlier, hearlier⟩ := Bytes.occurs_iff.1 hin
  have hfirst := hleads.first (hearlier.trans hpre)
  have hle := hearlier.length_le
  have hlength := congrArg List.length hhead
  rw [List.length_append] at hle hlength
  omega

theorem Sent.Framed.decode (h : s.Framed r) {d : Decoder} {used : Request} {buffer : Bytes}
    (hd : d.Searched buffer) (hid : used.requestId = r.requestId) (hblank : used.blank = r.blank)
    (hpre : s.head <+: buffer) : d.decode used buffer = s.answer r := by
  obtain ⟨front, hhead, hleads, hanswer⟩ := h.leads
  have hfront : Leads front terminator buffer := hleads.congr (hhead ▸ hpre)
  rw [Decoder.decode_of_leads hd hfront, readHead_eq, hblank, hid, ← hanswer]
  rfl

theorem Sent.Framed.decoder_answer (h : s.Framed r) : (s.answer r).decoder = {} := by
  obtain ⟨front, -, -, hanswer⟩ := h.leads
  rw [Sent.answer, hanswer]
  exact decoder_readHead _ _

theorem Sent.Framed.contentLength_alone (h : s.Framed r) :
    (s.alone r).contentLength = s.body.length := h.contentLength

theorem Sent.blank_alone (r : Request) (s : Sent) : (s.alone r).blank = r.blank := by
  have hcap : (s.alone r).arena.capacity = r.blank.arena.capacity :=
    Decoder.capacity_decode {} r.blank s.head
  have hsame : r.blank.arena.capacity = r.arena.capacity := Nat.min_eq_left r.arena.capacity_le
  rw [blank, blank, hcap, hsame]

end Head

/-! ### Everything there at once -/

theorem pipeline_of_complete {d : Decoder} {r : Request} {input : Bytes} {consumed : Nat}
    (hinput : input ≠ []) (h : (d.decode r input).result = .ok (.complete consumed)) :
    pipeline d r input = ⟨input, d.decode r input⟩ ::
      pipeline (d.decode r input).decoder (d.decode r input).request
        (input.drop (consumed + (d.decode r input).request.contentLength)) := by
  rw [pipeline, if_neg hinput]
  refine congrArg (List.cons _) ?_
  split
  · rename_i first hfirst
    obtain rfl : first = consumed := by
      rw [h] at hfirst
      cases hfirst
      rfl
    rfl
  · rename_i hother
    exact absurd h (hother consumed)

/-- The heads of all requests, each with what follows it. -/
def heads (r : Request) : List Sent → List Arrival
  | [] => []
  | s :: left => ⟨joined (s :: left), s.answer r⟩ :: heads r left

/-- When everything is there at once, the heads are met in turn, and nothing else is. -/
theorem pipeline_joined {r used : Request} {sent : List Sent} (hframed : ∀ s ∈ sent, s.Framed r)
    (hid : used.requestId = r.requestId) (hblank : used.blank = r.blank) :
    pipeline {} used (joined sent) = heads r sent := by
  induction sent generalizing used with
  | nil => rw [pipeline, joined, List.flatMap_nil, if_pos rfl, heads]
  | cons s left ih =>
      obtain ⟨hs, hleft⟩ := List.forall_mem_cons.1 hframed
      have hanswer : Decoder.decode {} used (joined (s :: left)) = s.answer r :=
        hs.decode (Decoder.searched_start _) hid hblank (joined_cons s left ▸ List.prefix_append _ _)
      have hne : joined (s :: left) ≠ [] := by
        obtain ⟨front, hhead, -, -⟩ := hs.leads
        rw [joined_cons, hhead]
        exact List.append_ne_nil_of_left_ne_nil (List.append_ne_nil_of_right_ne_nil _ (by decide)) _
      have hresult : (Decoder.decode {} used (joined (s :: left))).result =
          .ok (.complete s.head.length) := hanswer ▸ hs.complete
      have hdrop : (joined (s :: left)).drop (s.head.length + (s.alone r).contentLength) = joined left := by
        rw [hs.contentLength_alone, joined_cons, ← List.append_assoc, ← List.length_append,
          List.drop_left]
      have hlater : pipeline {} (s.alone r) (joined left) = heads r left :=
        ih hleft rfl (s.blank_alone r)
      rw [pipeline_of_complete hne hresult, hanswer, hs.decoder_answer, heads, ← hlater,
        ← hdrop]
      rfl

/-! ### The connection after each action -/

namespace Connection

variable {r : Request} {sent done left : List Sent} {s : Sent} {arrived buffer : Bytes}

/-- Of what is sent `done` was met as a whole, and `buffer` has arrived behind it. -/
structure Divides (sent : List Sent) (arrived : Bytes) (done left : List Sent) (buffer : Bytes) :
    Prop where
  sent : sent = done ++ left
  arrived : arrived = joined done ++ buffer

namespace Divides

theorem arrive (h : Divides sent arrived done left buffer) (bytes : Bytes) :
    Divides sent (arrived ++ bytes) done left (buffer ++ bytes) :=
  ⟨h.sent, by rw [h.arrived, List.append_assoc]⟩

theorem due_eq (h : Divides sent arrived done left buffer) : due r arrived.length sent =
    done.flatMap (·.deliveries r) ++ due r buffer.length left := by
  rw [h.sent, h.arrived, List.length_append, due_append]

theorem framed (h : Divides sent arrived done (s :: left) buffer)
    (hframed : ∀ s ∈ sent, s.Framed r) : s.Framed r :=
  hframed s (h.sent ▸ List.mem_append_right _ List.mem_cons_self)

/-- What has arrived and was not met yet belongs to the requests that are left. -/
theorem buffer_le (h : Divides sent arrived done left buffer) (hpre : arrived <+: joined sent) :
    buffer <+: joined left := by
  rw [h.sent, h.arrived, joined_append] at hpre
  exact (List.prefix_append_right_inj _).1 hpre

theorem next (h : Divides sent arrived done (s :: left) buffer) {rest : Bytes}
    (hbuffer : buffer = s.head ++ s.body ++ rest) : Divides sent arrived (done ++ [s]) left rest where
  sent := by rw [h.sent, List.append_cons]
  arrived := by rw [h.arrived, hbuffer, joined_concat, List.append_assoc (joined done)]

end Divides

theorem head_of_buffer (h : buffer <+: joined (s :: left)) (hlong : s.head.length ≤ buffer.length) :
    s.head <+: buffer :=
  List.prefix_of_prefix_length_le (joined_cons s left ▸ List.prefix_append _ _) h hlong

theorem buffer_of_head (h : buffer <+: joined (s :: left)) (hshort : buffer.length < s.head.length) :
    buffer <+: s.head :=
  List.prefix_of_prefix_length_le h (joined_cons s left ▸ List.prefix_append _ _)
    (Nat.le_of_lt hshort)

theorem body_of_buffer (h : buffer <+: joined (s :: left))
    (hlong : s.head.length + s.body.length ≤ buffer.length) :
    buffer = s.head ++ s.body ++ buffer.drop (s.head.length + s.body.length) := by
  have hboth : s.head ++ s.body <+: joined (s :: left) := by
    rw [joined_cons, ← List.append_assoc]
    exact List.prefix_append _ _
  rw [← List.length_append] at hlong ⊢
  exact (List.prefix_iff_eq_append.1 (List.prefix_of_prefix_length_le hboth h hlong)).symm

/-- While the body is not there as a whole the caller is told so, and then it is given the body. -/
theorem body?_alone (h : s.Framed r) (hpre : buffer <+: joined (s :: left)) :
    (s.alone r).body? buffer s.head.length =
      if buffer.length < s.head.length + s.body.length then none else some s.body := by
  rw [body?, h.contentLength_alone]
  by_cases hlong : s.head.length + s.body.length ≤ buffer.length
  · rw [if_pos hlong, if_neg (Nat.not_lt.2 hlong), body_of_buffer hpre hlong, List.append_assoc,
      List.drop_left, List.take_left]
  · rw [if_neg hlong, if_pos (Nat.lt_of_not_le hlong)]

/-- The caller looks for a head that begins where the buffer does. -/
structure Seeks (r : Request) (c : Connection) : Prop where
  searched : ∀ next, c.buffer <+: next → c.decoder.Searched next
  requestId : c.request.requestId = r.requestId
  blank : c.request.blank = r.blank
  awaited : c.awaited = none

/-- The caller has the head of `s` and waits for the body. -/
structure Holds (r : Request) (s : Sent) (c : Connection) : Prop where
  decoder : c.decoder = {}
  request : c.request = s.alone r
  awaited : c.awaited = some s.head.length
  length_le : s.head.length ≤ c.buffer.length

/-- When `arrived` is there, the caller has met some requests as a whole, and of the next one it has the
head or not. -/
inductive Serves (r : Request) (sent : List Sent) (arrived : Bytes) : Trace → Prop
  | between {done left : List Sent} {c : Connection} (hdiv : Divides sent arrived done left c.buffer)
      (h : Seeks r c) : Serves r sent arrived ⟨done.flatMap (·.deliveries r), c⟩
  | within {done left : List Sent} {s : Sent} {c : Connection}
      (hdiv : Divides sent arrived done (s :: left) c.buffer) (h : Holds r s c) :
      Serves r sent arrived ⟨done.flatMap (·.deliveries r) ++ [.head s.head.length (s.alone r)], c⟩

variable {c : Connection} {t : Trace}

theorem serves_start (r : Request) (sent : List Sent) : Serves r sent [] ⟨[], { request := r }⟩ :=
  have hdiv : Divides sent [] [] sent [] := ⟨rfl, rfl⟩
  have hseeks : Seeks r { request := r } := ⟨fun next _ => Decoder.searched_start next, rfl, rfl, rfl⟩
  .between hdiv hseeks

theorem Serves.arrive (h : Serves r sent arrived t) (bytes : Bytes) :
    Serves r sent (arrived ++ bytes) (t.act (.arrive bytes)) := by
  cases h with
  | @between done left c hdiv h =>
      have hseeks : Seeks r { c with buffer := c.buffer ++ bytes } :=
        { h with searched := fun next hnext => h.searched next ((List.prefix_append _ _).trans hnext) }
      exact .between (hdiv.arrive bytes) hseeks
  | @within done left s c hdiv h =>
      have hholds : Holds r s { c with buffer := c.buffer ++ bytes } :=
        { h with length_le := Nat.le_trans h.length_le (List.prefix_append _ _).length_le }
      exact .within (hdiv.arrive bytes) hholds

/-! ### A look -/

theorem look_of_absent (h : Seeks r c) (habsent : ¬ terminator <:+: c.buffer) :
    c.look.deliveries = [] ∧ c.look.connection.buffer = c.buffer ∧ Seeks r c.look.connection := by
  have hlook : c.look = ⟨[], { c with decoder := (c.decoder.decode c.request c.buffer).decoder }⟩ := by
    have hanswer := Decoder.decode_of_absent (d := c.decoder) (r := c.request) habsent
    simp only [Connection.look, h.awaited, hanswer]
  rw [hlook]
  have hsearched : c.decoder.Searched c.buffer := h.searched _ (List.prefix_refl _)
  exact ⟨rfl, rfl, { h with searched := fun next hnext => Decoder.searched_decode hsearched hnext }⟩

theorem look_of_head (hs : s.Framed r) (h : Seeks r c) (hhead : s.head <+: c.buffer) :
    c.look.deliveries = [.head s.head.length (s.alone r)] ∧ c.look.connection.buffer = c.buffer ∧
      Holds r s c.look.connection := by
  have hlook : c.look = ⟨[.head s.head.length (s.alone r)],
      ⟨{}, s.alone r, c.buffer, some s.head.length⟩⟩ := by
    have hanswer := hs.decode (h.searched _ (List.prefix_refl _)) h.requestId h.blank hhead
    have hresult : (s.answer r).result = .ok (.complete s.head.length) := hs.complete
    simp only [Connection.look, h.awaited, hanswer, hresult, hs.decoder_answer]
    rfl
  rw [hlook]
  exact ⟨rfl, rfl, rfl, rfl, rfl, hhead.length_le⟩

theorem look_of_short (hs : s.Framed r) (h : Holds r s c) (hpre : c.buffer <+: joined (s :: left))
    (hshort : c.buffer.length < s.head.length + s.body.length) : c.look = ⟨[], c⟩ := by
  have hbody := body?_alone hs hpre
  rw [if_pos hshort, ← h.request] at hbody
  simp only [Connection.look, h.awaited, hbody]

theorem look_of_body (hs : s.Framed r) (h : Holds r s c) (hpre : c.buffer <+: joined (s :: left))
    (hlong : s.head.length + s.body.length ≤ c.buffer.length) :
    c.look.deliveries = [.body s.body] ∧
      c.look.connection.buffer = c.buffer.drop (s.head.length + s.body.length) ∧
      Seeks r c.look.connection := by
  have hlook : c.look = ⟨[.body s.body],
      { c with buffer := c.buffer.drop (s.head.length + s.body.length), awaited := none }⟩ := by
    have hbody := body?_alone hs hpre
    have hlength : c.request.contentLength = s.body.length := h.request ▸ hs.contentLength_alone
    rw [if_neg (Nat.not_lt.2 hlong), ← h.request] at hbody
    simp only [Connection.look, h.awaited, hbody, hlength]
  rw [hlook]
  refine ⟨rfl, rfl, fun next _ => h.decoder ▸ Decoder.searched_start next, ?_, ?_, rfl⟩
  · rw [h.request]
    rfl
  · rw [h.request]
    exact s.blank_alone r

/-- A look meets one more of what is due, or all of that was met before. -/
structure Progresses (r : Request) (sent : List Sent) (arrived : Bytes) (t : Trace) : Prop where
  serves : Serves r sent arrived (t.act .look)
  more : t.deliveries = due r arrived.length sent ∨
    (t.act .look).deliveries.length = t.deliveries.length + 1

theorem Seeks.progresses (hframed : ∀ s ∈ sent, s.Framed r) (hpre : arrived <+: joined sent)
    (hdiv : Divides sent arrived done left c.buffer) (h : Seeks r c) :
    Progresses r sent arrived ⟨done.flatMap (·.deliveries r), c⟩ := by
  have hdue : due r arrived.length sent = _ := hdiv.due_eq
  have hbuffer := hdiv.buffer_le hpre
  -- Without a whole head nothing is met, and nothing is due.
  have hwait (habsent : ¬ terminator <:+: c.buffer) (hnone : due r c.buffer.length left = []) :
      Progresses r sent arrived ⟨done.flatMap (·.deliveries r), c⟩ := by
    obtain ⟨hdeliveries, hsame, hseeks⟩ := look_of_absent h habsent
    refine ⟨?_, .inl ?_⟩
    · rw [Trace.act, hdeliveries, List.append_nil]
      exact .between (hsame ▸ hdiv) hseeks
    · rw [hdue, hnone, List.append_nil]
  cases left with
  | nil =>
      have hempty : c.buffer = [] := List.prefix_nil.1 hbuffer
      refine hwait (fun hin => ?_) rfl
      rw [hempty] at hin
      exact absurd (List.infix_nil.1 hin) (by decide)
  | cons s left =>
      have hs := hdiv.framed hframed
      rcases Nat.lt_or_ge c.buffer.length s.head.length with hshort | hlong
      · refine hwait (hs.absent (buffer_of_head hbuffer hshort) hshort) ?_
        rw [due, if_pos hshort]
      · obtain ⟨hdeliveries, hsame, hholds⟩ := look_of_head hs h (head_of_buffer hbuffer hlong)
        constructor
        · rw [Trace.act, hdeliveries]
          exact .within (hsame ▸ hdiv) hholds
        · rw [Trace.act, hdeliveries]
          exact .inr List.length_append

theorem Holds.progresses (hframed : ∀ s ∈ sent, s.Framed r) (hpre : arrived <+: joined sent)
    (hdiv : Divides sent arrived done (s :: left) c.buffer) (h : Holds r s c) :
    Progresses r sent arrived
      ⟨done.flatMap (·.deliveries r) ++ [.head s.head.length (s.alone r)], c⟩ := by
  have hs := hdiv.framed hframed
  have hbuffer := hdiv.buffer_le hpre
  rcases Nat.lt_or_ge c.buffer.length (s.head.length + s.body.length) with hshort | hlong
  · refine ⟨?_, .inl ?_⟩
    · rw [Trace.act, look_of_short hs h hbuffer hshort, List.append_nil]
      exact .within hdiv h
    · rw [hdiv.due_eq, due, if_neg (Nat.not_lt.2 h.length_le), if_pos hshort]
  · obtain ⟨hdeliveries, hrest, hseeks⟩ := look_of_body hs h hbuffer hlong
    have hmet : done.flatMap (·.deliveries r) ++ [.head s.head.length (s.alone r)] ++ [.body s.body] =
        (done ++ [s]).flatMap (·.deliveries r) := by
      rw [List.flatMap_append, List.flatMap_singleton, List.append_assoc]
      rfl
    constructor
    · rw [Trace.act, hdeliveries, hmet]
      exact .between (hrest ▸ hdiv.next (body_of_buffer hbuffer hlong)) hseeks
    · rw [Trace.act, hdeliveries]
      exact .inr List.length_append

theorem Serves.look (hframed : ∀ s ∈ sent, s.Framed r) (h : Serves r sent arrived t)
    (hpre : arrived <+: joined sent) : Progresses r sent arrived t := by
  cases h with
  | between hdiv h => exact h.progresses hframed hpre hdiv
  | within hdiv h => exact h.progresses hframed hpre hdiv

/-! ### Any schedule -/

theorem Serves.foldl (hframed : ∀ s ∈ sent, s.Framed r) (actions : List Action)
    (h : Serves r sent arrived t) (hpre : arrived ++ arrivals actions <+: joined sent) :
    Serves r sent (arrived ++ arrivals actions) (actions.foldl .act t) := by
  induction actions generalizing arrived t with
  | nil =>
      rw [arrivals, List.flatMap_nil, List.append_nil]
      exact h
  | cons a actions ih =>
      have harrivals : arrived ++ arrivals (a :: actions) = arrived ++ a.bytes ++ arrivals actions := by
        rw [arrivals, List.flatMap_cons, List.append_assoc]
        rfl
      rw [harrivals] at hpre ⊢
      refine ih ?_ hpre
      cases a with
      | arrive bytes => exact h.arrive bytes
      | look =>
          rw [Action.bytes, List.append_nil] at hpre ⊢
          exact (h.look hframed ((List.prefix_append _ _).trans hpre)).serves

theorem serves_run (hframed : ∀ s ∈ sent, s.Framed r) {actions : List Action}
    (hpre : arrivals actions <+: joined sent) : Serves r sent (arrivals actions) (run r actions) :=
  (serves_start r sent).foldl hframed actions hpre

theorem Serves.deliveries_le_due (h : Serves r sent arrived t) :
    t.deliveries <+: due r arrived.length sent := by
  cases h with
  | between hdiv _ =>
      rw [hdiv.due_eq]
      exact List.prefix_append _ _
  | within hdiv h =>
      rw [hdiv.due_eq, due, if_neg (Nat.not_lt.2 h.length_le)]
      refine (List.prefix_append_right_inj _).2 ?_
      split
      · exact List.prefix_refl _
      · exact ⟨_, List.singleton_append⟩

theorem Serves.look_nil_iff (hframed : ∀ s ∈ sent, s.Framed r) (h : Serves r sent arrived t)
    (hpre : arrived <+: joined sent) :
    t.connection.look.deliveries = [] ↔ t.deliveries = due r arrived.length sent := by
  obtain ⟨hserves, hstep⟩ := h.look hframed hpre
  have hact : (t.act .look).deliveries = t.deliveries ++ t.connection.look.deliveries := rfl
  constructor
  · intro hnil
    refine hstep.resolve_right fun hmore => ?_
    rw [hact, hnil, List.append_nil] at hmore
    omega
  · intro hall
    have hlength := hserves.deliveries_le_due.length_le
    rw [hact, ← hall, List.length_append] at hlength
    exact List.length_eq_zero_iff.1 (by omega)

theorem arrivals_looks (actions : List Action) (n : Nat) :
    arrivals (actions ++ List.replicate n .look) = arrivals actions := by
  have hnone : (List.replicate n Action.look).flatMap (·.bytes) = [] :=
    List.flatMap_eq_nil_iff.2 fun a ha => (List.eq_of_mem_replicate ha) ▸ rfl
  rw [arrivals, List.flatMap_append, hnone, List.append_nil]
  rfl

theorem run_looks_succ (r : Request) (actions : List Action) (n : Nat) :
    run r (actions ++ List.replicate (n + 1) .look) =
      (run r (actions ++ List.replicate n .look)).act .look := by
  rw [List.replicate_succ', ← List.append_assoc, run, List.foldl_append]
  rfl

/-- Every look meets one more of what is due, until there is no more. -/
theorem length_looks (hframed : ∀ s ∈ sent, s.Framed r) {actions : List Action}
    (hpre : arrivals actions <+: joined sent) (n : Nat) :
    min n (due r (arrivals actions).length sent).length ≤
      (run r (actions ++ List.replicate n .look)).deliveries.length := by
  induction n with
  | zero => exact Nat.le_trans (Nat.min_le_left ..) (Nat.zero_le _)
  | succ n ih =>
      have hsame := arrivals_looks actions n
      have hlook := ((serves_run hframed (hsame.symm ▸ hpre)).look hframed (hsame.symm ▸ hpre)).more
      rw [hsame, ← run_looks_succ] at hlook
      rcases hlook with hall | hmore
      · rw [run_looks_succ, Trace.act, hall, List.length_append]
        omega
      · omega

/-- The head of `s` was met last, and its body is waited for. -/
structure Awaits (r : Request) (sent : List Sent) (arrived : Bytes) (t : Trace) (done : List Sent)
    (s : Sent) (left : List Sent) : Prop extends
    Divides sent arrived done (s :: left) t.connection.buffer where
  met : t.deliveries = done.flatMap (·.deliveries r) ++ [.head s.head.length (s.alone r)]
  request : t.connection.request = s.alone r
  awaited : t.connection.awaited = some s.head.length
  body : t.connection.request.body? t.connection.buffer s.head.length =
    if t.connection.buffer.length < s.head.length + s.body.length then none else some s.body

theorem Serves.awaits (hframed : ∀ s ∈ sent, s.Framed r) (h : Serves r sent arrived t)
    (hpre : arrived <+: joined sent) (hawaited : t.connection.awaited ≠ none) :
    ∃ done s left, Awaits r sent arrived t done s left := by
  cases h with
  | between _ h => exact absurd h.awaited hawaited
  | @within done left s c hdiv h =>
      refine ⟨done, s, left, hdiv, rfl, h.request, h.awaited, ?_⟩
      rw [h.request]
      exact body?_alone (hdiv.framed hframed) (hdiv.buffer_le hpre)

/-- **Pipelined requests.** Let what arrives be the requests one behind the other, or the first part of
them. In every order of arrivals and looks the caller meets what is due, or the first part of it, and
a look meets nothing only when all of it was met, for which two looks a request are enough. What is due
in the end is for each request its head, decoded as it is decoded alone, and its body. In between, a body
is withheld until all of it has arrived. -/
theorem run_sent (r : Request) {sent : List Sent} (hframed : ∀ s ∈ sent, s.Framed r)
    {actions : List Action} (harrived : arrivals actions <+: joined sent) :
    let trace := run r actions
    let target := due r (arrivals actions).length sent
    trace.deliveries <+: target ∧
      (trace.connection.look.deliveries = [] ↔ trace.deliveries = target) ∧
      (∀ n, 2 * sent.length ≤ n → (run r (actions ++ List.replicate n .look)).deliveries = target) ∧
      (arrivals actions = joined sent → target = sent.flatMap (·.deliveries r)) ∧
      (trace.connection.awaited ≠ none →
        ∃ done s left, Awaits r sent (arrivals actions) trace done s left) := by
  intro trace target
  have hserves : Serves r sent (arrivals actions) trace := serves_run hframed harrived
  refine ⟨hserves.deliveries_le_due, hserves.look_nil_iff hframed harrived, fun n hn => ?_,
    fun hall => ?_, hserves.awaits hframed harrived⟩
  · have hsame := arrivals_looks actions n
    have hmet := (serves_run hframed (hsame.symm ▸ harrived)).deliveries_le_due
    rw [hsame] at hmet
    have hlooks := length_looks hframed harrived n
    have hbound := length_due_le r (arrivals actions).length sent
    exact hmet.eq_of_length_le (by omega)
  · simp only [target, hall, due_joined]

/-- A body that holds the end of a head, and arrives in two pieces with the next head behind it. -/
theorem run_sent_pair :
    let r := Request.new {}
    let first : Sent :=
      ⟨Utf8.ofString "POST /accounts/new/?query_id=7 HTTP/1.1\r\ncontent-length: 6\r\n\r\n",
        Utf8.ofString "\x7b\r\n\r\n\x7d"⟩
    let second : Sent := ⟨Utf8.ofString "GET /accounts/filter/?limit=3 HTTP/1.1\r\n\r\n", []⟩
    let early : List Action := [.arrive (first.head ++ first.body.take 5), .look]
    let late : List Action := early ++ [.arrive (first.body.drop 5 ++ second.head)]
    (run r (early ++ List.replicate 4 .look)).deliveries = [.head first.head.length (first.alone r)] ∧
      (∃ done s left, Awaits r [first, second] (arrivals early) (run r early) done s left) ∧
      (run r (late ++ List.replicate 4 .look)).deliveries =
        first.deliveries r ++ second.deliveries r := by
  intro r first second early late
  have hfirst : first.Framed r := ⟨by decide +kernel, by decide +kernel⟩
  have hsecond : second.Framed r := ⟨by decide +kernel, by decide +kernel⟩
  have hframed : ∀ s ∈ [first, second], s.Framed r :=
    List.forall_mem_cons.2 ⟨hfirst, List.forall_mem_singleton.2 hsecond⟩
  have hall : arrivals late = joined [first, second] := by decide +kernel
  have hearly : arrivals early <+: joined [first, second] :=
    hall ▸ ⟨(Action.arrive (first.body.drop 5 ++ second.head)).bytes, by decide +kernel⟩
  have hlate : arrivals late <+: joined [first, second] := hall ▸ List.prefix_refl _
  obtain ⟨-, -, hsome, -, hawaits⟩ := run_sent r hframed hearly
  obtain ⟨-, -, hlooks, htarget, -⟩ := run_sent r hframed hlate
  refine ⟨?_, hawaits (by decide +kernel), ?_⟩
  · have hhead : ¬ (arrivals early).length < first.head.length := by decide +kernel
    have hbody : (arrivals early).length < first.head.length + first.body.length := by decide +kernel
    rw [hsome 4 (by decide), due, if_neg hhead, if_pos hbody]
  · rw [hlooks 4 (by decide), htarget hall, List.flatMap_cons, List.flatMap_singleton]

end Connection

end Intake.Request
