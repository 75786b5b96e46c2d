import Osrv.Lib.Run
import Osrv.Web.Asks

/-!
# Sessions over HTTP

Any number of clients have a connection each that is kept open, and share the store and the
work queue. A client sends a request, in pieces, when it has read the replies to all that it
has sent before. The workers take turns, and a turn is a call of `http_input_iteration`, so
that the requests of the clients come in at the same time, piece by piece.

The specification knows the entries, the queue and, for each client, the request that has no
reply yet and the replies. It performs a request at some turn of its worker.
`sessions_linearize` says that this is what the workers do, whatever the clients send and in
whatever order the turns are taken, and that a request has its reply when its worker has taken
as many turns as there were bytes of it to come.
-/

namespace Osrv
namespace Web

open Bytes Net Obj Sfs Http
open Client (Stacked)
open Fronts (ObjEntry)

/-! ### Requests -/

/-- A request as it comes in: what is asked for, the header lines and the pieces. -/
structure Arriving where
  ask : Ask
  fields : List (List UInt8)
  pieces : List Segment

def Arriving.bytes (r : Arriving) : List UInt8 :=
  writeRequest r.ask.method r.ask.target.bytes r.fields r.ask.body

/-- The pieces are a request that keeps the connection open, and do not cut a line end in its
head. -/
structure Arriving.Fits (r : Arriving) : Prop where
  names : r.ask.Names
  written : WrittenRequest r.ask.method r.ask.target r.fields r.ask.body
  pieces : r.pieces.flatMap Subtype.val = r.bytes
  noCut : NoCut [] r.pieces

theorem Arriving.Fits.small {r : Arriving} (h : r.Fits) : r.ask.body.length < 2 ^ 31 :=
  Nat.lt_of_le_of_lt h.written.small (by decide)

/-- What can happen: a client sends a request, or a worker takes its turn. -/
inductive Act (W : Type)
  | send (w : W) (r : Arriving)
  | serve (w : W)

/-- Whose connection it is about. -/
def Act.worker {W : Type} : Act W → W
  | .send w _ | .serve w => w

/-- Whether the worker takes a turn. -/
def Act.serves {W : Type} [DecidableEq W] (w : W) : Act W → Bool
  | .serve v => v = w
  | .send _ _ => false

/-! ### The specification -/

/-- A client: the request that has no reply yet, and the replies. -/
structure Session where
  pending : Option Ask
  replies : List Message.Reply

/-- What the server is for. -/
structure Service (W : Type) where
  entries : List ObjEntry
  queue : Option (List (List UInt8))
  session : W → Session

section Service

variable {W : Type} [DecidableEq W] (u : Service W)

/-- A client that has all its replies asks for something. -/
def Service.ask (w : W) (a : Ask) : Service W :=
  match (u.session w).pending with
  | some _ => u
  | none => { u with session := Function.update u.session w ⟨some a, (u.session w).replies⟩ }

/-- The request is performed. -/
def Service.answer (w : W) : Service W :=
  match (u.session w).pending with
  | none => u
  | some a =>
    { entries := a.entries u.entries
      queue := a.queue u.queue
      session := Function.update u.session w
        ⟨none, (u.session w).replies ++ [a.reply u.entries u.queue]⟩ }

theorem Service.answer_of_pending {w : W} {a : Ask} (h : (u.session w).pending = some a) :
    u.answer w =
      { entries := a.entries u.entries
        queue := a.queue u.queue
        session := Function.update u.session w
          ⟨none, (u.session w).replies ++ [a.reply u.entries u.queue]⟩ } := by
  rw [Service.answer, h]

/-- A turn performs the request, or leaves it for another turn. -/
inductive Service.Step : Act W → Service W → Prop
  | ask (w : W) (r : Arriving) : Service.Step (.send w r) (u.ask w r.ask)
  | answer (w : W) : Service.Step (.serve w) (u.answer w)
  | wait (w : W) : Service.Step (.serve w) u

end Service

/-! ### The workers -/

/-- The workers with their connections, and what each client has asked for. -/
structure System (W : Type) where
  store : Objects
  queue : Option (List (List UInt8))
  conn : W → Connection Server
  asked : W → List Ask

section System

variable {W : Type} [DecidableEq W] (kernel : W → SendFn) (malloc : W → Malloc)
  (garbage : W → ℕ → Option Garbage)

/-- Connections that were just accepted. -/
def System.init (bufs : W → Memory) (s : Objects) (q : Option (List (List UInt8))) :
    System W where
  store := s
  queue := q
  conn w := .init (bufs w) ⟨[], .waiting⟩ ⟨⟨0, []⟩, s, q, 0, false⟩
  asked _ := []

/-- The client has read a reply to each of its requests. -/
def System.satisfied (t : System W) (w : W) : Bool :=
  (Message.readReplies ((t.asked w).map Ask.exchange) (t.conn w).world.conn.out).isSome

/-- A connection with what the workers share. -/
def System.at (t : System W) (w : W) : Connection Server :=
  { t.conn w with world := { (t.conn w).world with store := t.store, queue := t.queue } }

def System.put (t : System W) (w : W) (c : Connection Server) : System W :=
  { t with
    store := c.world.store
    queue := c.world.queue
    conn := Function.update t.conn w c }

def System.step (t : System W) : Act W → Option (System W)
  | .send w r =>
    if t.satisfied w then
      some { t with
        conn := Function.update t.conn w { t.conn w with
          input := ⟨(t.conn w).input.segments ++ r.pieces, .waiting⟩ }
        asked := Function.update t.asked w (t.asked w ++ [r.ask]) }
    else some t
  | .serve w =>
    if (t.conn w).s then
      (http_input_iteration (malloc w) (http_process (kernel w) (malloc w) (garbage w))
        (t.at w)).map fun r =>
          match r with
          -- a call that waits is taken up again at the next turn
          | .ret c => t.put w c
          | .blocked c => t.put w c
    else some t

end System

/-! ### The simulation -/

/-- A connection, what its client has asked for and what the specification says of it. -/
inductive Tracks (malloc : Malloc) (c : Connection Server) (asked : List Ask) : Session → Prop
  /-- Nothing is left of the requests, and there is a reply to each. -/
  | idle {replies : List Message.Reply} (hs : c.s = true) (hidle : Idle c)
      (hcur : c.current = []) (hnone : c.input.bytes = []) (hending : c.input.ending = .waiting)
      (hreplied : Message.Replied (asked.map Ask.exchange) c.world.conn.out replies) :
      Tracks malloc c asked ⟨none, replies⟩
  /-- The last request is on its way, and there is a reply to each of the others. -/
  | pending {done : List Ask} {r : Arriving} {replies : List Message.Reply}
      (hasked : asked = done ++ [r.ask]) (hr : r.Fits) (hawaits : Awaits malloc c r.bytes)
      (hreplied : Message.Replied (done.map Ask.exchange) c.world.conn.out replies) :
      Tracks malloc c asked ⟨some r.ask, replies⟩

/-- The workers and the specification. -/
structure Refines {W : Type} (malloc : W → Malloc) (t : System W) (u : Service W) : Prop where
  stacked : Stacked u.entries t.store
  servable : ∀ e ∈ u.entries, Servable e
  queue : t.queue = u.queue
  fault : ∀ w, (t.conn w).world.fault = false
  /-- No recorded head has run over its buffer. -/
  heap : ∀ w, (t.conn w).overrun = false
  tracks : ∀ w, Tracks (malloc w) (t.conn w) (t.asked w) (u.session w)

section Refines

variable {W : Type} [DecidableEq W] {kernel : W → SendFn} {malloc : W → Malloc}
  {garbage : W → ℕ → Option Garbage} {t : System W} {u : Service W}

/-- What has become of one connection decides. -/
theorem Refines.put (h : Refines malloc t u) {w : W} {c : Connection Server} {u' : Service W}
    {x : Session} (hsession : u'.session = Function.update u.session w x)
    (hstacked : Stacked u'.entries c.world.store) (hes : ∀ e ∈ u'.entries, Servable e)
    (hqueue : c.world.queue = u'.queue) (hfault : c.world.fault = false)
    (hheap : c.overrun = false) (htracks : Tracks (malloc w) c (t.asked w) x) :
    Refines malloc (t.put w c) u' where
  stacked := hstacked
  servable := hes
  queue := hqueue
  fault := (Function.forall_update_iff t.conn fun _ c => c.world.fault = false).mpr
    ⟨hfault, fun v _ => h.fault v⟩
  heap := (Function.forall_update_iff t.conn fun _ c => c.overrun = false).mpr
    ⟨hheap, fun v _ => h.heap v⟩
  tracks v := by
    rw [hsession]
    show Tracks _ (Function.update t.conn w c v) _ _
    by_cases hv : v = w
    · subst hv
      rw [Function.update_self, Function.update_self]
      exact htracks
    · rw [Function.update_of_ne hv, Function.update_of_ne hv]
      exact h.tracks v

variable (kernel garbage) in
/-- **A client sends** if the specification has no request of it. -/
theorem Refines.send (h : Refines malloc t u) (w : W) {r : Arriving} (hr : r.Fits) :
    ∃ t', t.step kernel malloc garbage (.send w r) = some t' ∧
      Refines malloc t' (u.ask w r.ask) ∧ ((u.session w).pending ≠ none → t' = t) := by
  have htracks := h.tracks w
  rw [Service.ask]
  generalize hsession : u.session w = x at htracks
  cases htracks with
  | pending hasked hr' hawaits hreplied =>
    -- a reply is missing
    refine ⟨t, ?_, h, fun _ => rfl⟩
    have hmissing : t.satisfied w = false := by
      rw [System.satisfied, hasked, List.map_append, List.map_singleton,
        hreplied.missing _ [], Option.isSome_none]
    rw [System.step, hmissing, if_neg Bool.false_ne_true]
  | @idle replies hs hidle hcur hnone hending hreplied =>
    have hread := hreplied []
    rw [List.append_nil] at hread
    have hsatisfied : t.satisfied w = true := by
      rw [System.satisfied, hread, Option.isSome_some]
    have hstep : t.step kernel malloc garbage (.send w r) = some { t with
        conn := Function.update t.conn w { t.conn w with
          input := ⟨(t.conn w).input.segments ++ r.pieces, .waiting⟩ }
        asked := Function.update t.asked w (t.asked w ++ [r.ask]) } := by
      rw [System.step, hsatisfied, if_pos rfl]
    have hfault : ∀ v, (Function.update t.conn w { t.conn w with
        input := ⟨(t.conn w).input.segments ++ r.pieces, .waiting⟩ } v).world.fault = false :=
      (Function.forall_update_iff t.conn fun _ c => c.world.fault = false).mpr
        ⟨h.fault w, fun v _ => h.fault v⟩
    have hheap : ∀ v, (Function.update t.conn w { t.conn w with
        input := ⟨(t.conn w).input.segments ++ r.pieces, .waiting⟩ } v).overrun = false :=
      (Function.forall_update_iff t.conn fun _ c => c.overrun = false).mpr
        ⟨h.heap w, fun v _ => h.heap v⟩
    refine ⟨_, hstep, ⟨h.stacked, h.servable, h.queue, hfault, hheap, fun v => ?_⟩,
      fun hne => absurd rfl hne⟩
    show Tracks _ (Function.update t.conn w _ v) (Function.update t.asked w _ v)
      (Function.update u.session w _ v)
    by_cases hv : v = w
    · subst hv
      rw [Function.update_self, Function.update_self, Function.update_self]
      have hawaits : Awaits (malloc v) { t.conn v with input := ⟨r.pieces, .waiting⟩ }
          (r.pieces.flatMap Subtype.val) := hidle.awaits hs hcur hr.noCut
      rw [hr.pieces] at hawaits
      refine .pending rfl hr ?_ hreplied
      rw [Input.bytes_eq_nil hnone, List.nil_append]
      exact hawaits
    · rw [Function.update_of_ne hv, Function.update_of_ne hv, Function.update_of_ne hv]
      exact h.tracks v

/-- **A turn** performs the request of the client or receives more of it, if there is one. -/
theorem Refines.serve (h : Refines malloc t u) (hsend : ∀ w, (kernel w).Succeeds)
    (hmalloc : ∀ w, (malloc w).Succeeds)
    (hgarbage : ∀ w i, ∃ g, garbage w i = some g ∧ Suits g) (w : W) :
    ∃ t' u', t.step kernel malloc garbage (.serve w) = some t' ∧ u.Step (.serve w) u' ∧
      Refines malloc t' u' ∧ ((u'.session w).pending = none ∨
        u' = u ∧ (t'.conn w).input.bytes.length < (t.conn w).input.bytes.length) := by
  have htracks := h.tracks w
  have hsame : u.session = Function.update u.session w (u.session w) :=
    (Function.update_eq_self w u.session).symm
  generalize hsession : u.session w = x at htracks hsame
  cases htracks with
  -- the worker waits for a request
  | idle hs hidle hcur hnone hending hreplied =>
    have hpos : (t.at w).line_pos < LINE_BUF_SIZE := by
      change (t.conn w).line_pos < LINE_BUF_SIZE
      rw [hidle.line_pos hcur]
      decide
    have hidle' : Idle (t.at w) := ⟨hidle.reading, hidle.current, hidle.body_pos⟩
    refine ⟨t.put w (t.at w), u, ?_, .wait w, ?_, Or.inl (by rw [hsession])⟩
    · rw [System.step, if_pos hs, hidle'.waits hpos hnone hending]
      rfl
    · exact h.put hsame h.stacked h.servable h.queue (h.fault w) (h.heap w)
        (.idle hs hidle' hcur hnone hending hreplied)
  -- a request is on its way
  | @pending done r replies hasked hr hawaits hreplied =>
    have hawaits' : Awaits (malloc w) (t.at w) r.bytes := hawaits.world _
    have hturn := hawaits'.turn (hr.written.keepAlive (hmalloc w) _)
      (http_process_keepsOpen (kernel w) (malloc w) (garbage w))
    have hstep : t.step kernel malloc garbage (.serve w) = (http_input_iteration (malloc w)
        (http_process (kernel w) (malloc w) (garbage w)) (t.at w)).map fun r =>
          match r with
          | .ret c => t.put w c
          | .blocked c => t.put w c := by
      rw [System.step, if_pos hawaits.s]
    generalize http_input_iteration (malloc w)
      (http_process (kernel w) (malloc w) (garbage w)) (t.at w) = res at hturn hstep
    cases hturn with
    -- a piece that completes nothing shortens what is to come
    | @onward c' bs hon hne hrest =>
      refine ⟨t.put w c', u, hstep, .wait w, h.put hsame ?_ h.servable ?_ ?_
        (hon.overrun.trans (h.heap w)) ?_, Or.inr ⟨rfl, ?_⟩⟩
      · rw [hon.world]
        exact h.stacked
      · rw [hon.world]
        exact h.queue
      · rw [hon.world]
        exact h.fault w
      · refine .pending hasked hr hrest ?_
        rw [hon.world]
        exact hreplied
      · show (Function.update t.conn w c' w).input.bytes.length < (t.at w).input.bytes.length
        have hpos := List.length_pos_of_ne_nil hne
        rw [Function.update_self, hon.input, List.length_append]
        omega
    -- the handler answers from the store that the sessions share
    | @called c' rd hcalled hcall hover hopen hnone hending =>
      have hasks := hr.written.asks (hmalloc w) hcalled
      have hhandled := r.ask.handled hasks hr.names hr.small (hsend w) (hmalloc w) (hgarbage w)
        (w := (t.at w).world) h.stacked h.servable (h.fault w)
      rw [← hcall.world] at hhandled
      obtain ⟨⟨response, hout, hread⟩, hstacked, hqueue, hfault⟩ := hhandled
      obtain ⟨hidle, hcur⟩ := hcall.ready hopen
      have hanswer := u.answer_of_pending (congrArg Session.pending hsession)
      have hshared : (t.at w).world.queue = u.queue := h.queue
      rw [hshared] at hread hqueue
      refine ⟨t.put w c', u.answer w, hstep, .answer w, ?_, Or.inl ?_⟩
      · rw [hanswer, hsession]
        refine h.put rfl hstacked (Ask.servable h.servable hr.small) hqueue hfault
          (hover (h.heap w)) (.idle hopen hidle hcur hnone hending ?_)
        rw [hasked, List.map_append, List.map_singleton, hout]
        exact hreplied.snoc hread
      · rw [hanswer]
        exact congrArg Session.pending (Function.update_self w _ u.session)

/-! ### Turns -/

theorem Service.ask_replies (v w : W) (a : Ask) :
    ((u.ask v a).session w).replies = (u.session w).replies := by
  rw [Service.ask]
  split
  · rfl
  · show (Function.update u.session v _ w).replies = _
    by_cases hw : w = v
    · subst hw
      rw [Function.update_self]
    · rw [Function.update_of_ne hw]

theorem Service.answer_replies {w : W} {a : Ask} (h : (u.session w).pending = some a) :
    ((u.answer w).session w).replies
      = (u.session w).replies ++ [a.reply u.entries u.queue] := by
  rw [u.answer_of_pending h]
  exact congrArg Session.replies (Function.update_self w _ u.session)

theorem Service.Step.of_ne {u' : Service W} {a : Act W} {w : W} (hw : a.worker ≠ w)
    (h : u.Step a u') : u'.session w = u.session w := by
  cases h with
  | ask v r =>
    rw [Service.ask]
    split
    · rfl
    · exact Function.update_of_ne hw.symm _ _
  | answer v =>
    rw [Service.answer]
    split
    · rfl
    · exact Function.update_of_ne hw.symm _ _
  | wait v => rfl

/-- No reply is taken back. -/
theorem Service.Step.replies_le {u' : Service W} {a : Act W} (h : u.Step a u') (w : W) :
    (u.session w).replies.length ≤ (u'.session w).replies.length := by
  cases h with
  | ask v r => rw [Service.ask_replies]
  | wait v => exact Nat.le_refl _
  | answer v =>
    by_cases hw : w = v
    · subst hw
      cases hpending : (u.session w).pending with
      | none => rw [Service.answer, hpending]
      | some b =>
        rw [Service.answer_replies hpending, List.length_append]
        exact Nat.le_add_right _ _
    · rw [Service.Step.of_ne (Ne.symm hw) (.answer v)]

/-- What is done for one client does not show at the others. -/
theorem System.step_of_ne {t' : System W} {a : Act W} {w : W} (hw : a.worker ≠ w)
    (h : t.step kernel malloc garbage a = some t') : t'.conn w = t.conn w := by
  cases a with
  | send v r =>
    rw [System.step] at h
    split at h
    · obtain rfl := Option.some.inj h
      exact Function.update_of_ne hw.symm _ _
    · obtain rfl := Option.some.inj h
      rfl
  | serve v =>
    rw [System.step] at h
    split at h
    · obtain ⟨r, -, rfl⟩ := Option.map_eq_some_iff.mp h
      cases r with
      | ret c => exact Function.update_of_ne hw.symm _ _
      | blocked c => exact Function.update_of_ne hw.symm _ _
    · obtain rfl := Option.some.inj h
      rfl

/-- **Where a client stands** after the actions `l`: it has the replies to the `n` requests that
it had sent before, or the last of them is on its way and `m` bytes of it were to come. -/
inductive Due (w : W) (n m : ℕ) (l : List (Act W)) (t : System W) (u : Service W) : Prop
  | done (h : n ≤ (u.session w).replies.length)
  | underway (h : n = (u.session w).replies.length + 1) (hpending : (u.session w).pending ≠ none)
      (hbytes : (t.conn w).input.bytes.length + l.countP (Act.serves w) ≤ m)

theorem Refines.due (h : Refines malloc t u) (w : W) :
    Due w (t.asked w).length (t.conn w).input.bytes.length [] t u := by
  have htracks := h.tracks w
  generalize hsession : u.session w = x at htracks
  cases htracks with
  | idle hs hidle hcur hnone hending hreplied =>
    refine .done ?_
    rw [hsession, hreplied.length_eq, List.length_map]
  | pending hasked hr hawaits hreplied =>
    refine .underway ?_ ?_ (Nat.le_refl _)
    · rw [hsession, hreplied.length_eq, List.length_map, hasked, List.length_append]
      rfl
    · rw [hsession]
      exact Option.some_ne_none _

/-- When all bytes have been received, nothing is due. -/
theorem Refines.replied {w : W} {n m : ℕ} {l : List (Act W)} (h : Refines malloc t u)
    (hmalloc : (malloc w).Succeeds) (hdue : Due w n m l t u)
    (hturns : m ≤ l.countP (Act.serves w)) : n ≤ (u.session w).replies.length := by
  cases hdue with
  | done hdone => exact hdone
  | underway heq hpending hbytes =>
    have htracks := h.tracks w
    generalize u.session w = x at htracks hpending
    cases htracks with
    | idle hs hidle hcur hnone hending hreplied => exact absurd rfl hpending
    | pending hasked hr hawaits hreplied =>
      have hne := hawaits.input_ne_nil (hr.written.keepAlive hmalloc _)
      have hpos := List.length_pos_of_ne_nil hne
      omega

/-- **An action** of any client or worker. -/
theorem Refines.step (h : Refines malloc t u) (hsend : ∀ w, (kernel w).Succeeds)
    (hmalloc : ∀ w, (malloc w).Succeeds)
    (hgarbage : ∀ w i, ∃ g, garbage w i = some g ∧ Suits g) (a : Act W)
    (ha : ∀ w r, a = .send w r → r.Fits) :
    ∃ t' u', t.step kernel malloc garbage a = some t' ∧ u.Step a u' ∧ Refines malloc t' u' ∧
      ∀ w n m l, Due w n m l t u → Due w n m (l ++ [a]) t' u' := by
  have hcount : ∀ (l : List (Act W)) w, (l ++ [a]).countP (Act.serves w)
      = l.countP (Act.serves w) + if Act.serves w a then 1 else 0 := by
    intro l w
    rw [List.countP_append, List.countP_singleton]
  -- nothing changes for the other clients
  have hother : ∀ {t' u' w n m l}, a.worker ≠ w → t.step kernel malloc garbage a = some t' →
      u.Step a u' → Due w n m l t u → Due w n m (l ++ [a]) t' u' := by
    intro t' u' w n m l hw hstep hspec hdue
    have hserves : Act.serves w a = false := by
      cases a with
      | send v r => rfl
      | serve v => exact decide_eq_false hw
    cases hdue with
    | done hdone => exact .done (by rwa [hspec.of_ne hw])
    | underway heq hpending hbytes =>
      refine .underway ?_ ?_ ?_
      · rwa [hspec.of_ne hw]
      · rwa [hspec.of_ne hw]
      · rwa [System.step_of_ne hw hstep, hcount, hserves]
  cases a with
  | send v r =>
    obtain ⟨t', hstep, h', hsame⟩ := h.send kernel garbage v (ha v r rfl)
    refine ⟨t', _, hstep, .ask v r, h', fun w n m l hdue => ?_⟩
    by_cases hw : v = w
    · subst hw
      cases hdue with
      | done hdone => exact .done (hdone.trans (Service.Step.replies_le (.ask v r) v))
      | underway heq hpending hbytes =>
        -- the client waits for the reply
        obtain rfl := hsame hpending
        obtain ⟨b, hb⟩ := Option.ne_none_iff_exists'.mp hpending
        have hask : u.ask v r.ask = u := by rw [Service.ask, hb]
        rw [hask]
        refine .underway heq hpending ?_
        rw [hcount]
        exact hbytes
    · exact hother hw hstep (.ask v r) hdue
  | serve v =>
    obtain ⟨t', u', hstep, hspec, h', hturn⟩ := h.serve hsend hmalloc hgarbage v
    refine ⟨t', u', hstep, hspec, h', fun w n m l hdue => ?_⟩
    by_cases hw : v = w
    · subst hw
      have hserves : Act.serves v (.serve v) = true := decide_eq_true rfl
      cases hdue with
      | done hdone => exact .done (hdone.trans (hspec.replies_le v))
      | underway heq hpending hbytes =>
        obtain hnone | ⟨rfl, hlt⟩ := hturn
        -- the request has been performed
        · refine .done (Nat.le_of_eq ?_)
          obtain ⟨b, hb⟩ := Option.ne_none_iff_exists'.mp hpending
          cases hspec with
          | wait => exact absurd hnone hpending
          | answer =>
            rw [heq, Service.answer_replies hb, List.length_append, List.length_singleton]
        -- more of it has been received
        · refine .underway heq hpending ?_
          rw [hcount, hserves, if_pos rfl]
          omega
    · exact hother hw hstep hspec hdue

/-- **A run** from any state that is related to the specification. -/
theorem Refines.run (h : Refines malloc t u) (hsend : ∀ w, (kernel w).Succeeds)
    (hmalloc : ∀ w, (malloc w).Succeeds)
    (hgarbage : ∀ w i, ∃ g, garbage w i = some g ∧ Suits g) {acts : List (Act W)}
    (hfits : ∀ w r, .send w r ∈ acts → r.Fits) :
    ∃ t' u', Run.run (System.step kernel malloc garbage) t acts = some t' ∧
      Run.Steps Service.Step u acts u' ∧ Refines malloc t' u' ∧
      ∀ w, (t.conn w).input.bytes.length ≤ acts.countP (Act.serves w) →
        (t.asked w).length ≤ (u'.session w).replies.length := by
  obtain ⟨t', u', hrun, hsteps, h', hdue⟩ := Run.simulates
    (System.step kernel malloc garbage) (R := Service.Step)
    (P := fun l t' u' => Refines malloc t' u' ∧ ∀ w,
      Due w (t.asked w).length (t.conn w).input.bytes.length l t' u')
    (A := fun a => ∀ w r, a = .send w r → r.Fits) ⟨h, h.due⟩
    (fun l t₁ u₁ a hP ha => by
      obtain ⟨h₁, hdue₁⟩ := hP
      obtain ⟨t₂, u₂, hstep, hspec, h₂, hnext⟩ := h₁.step hsend hmalloc hgarbage a ha
      exact ⟨t₂, u₂, hstep, hspec, h₂, fun w => hnext w _ _ l (hdue₁ w)⟩)
    (fun a ha w r heq => hfits w r (heq ▸ ha))
  exact ⟨t', u', hrun, hsteps, h', fun w => h'.replied (hmalloc w) (hdue w)⟩

end Refines

/-! ### The result -/

/-- **Sessions over HTTP are linearized.** Whatever the clients send and in whatever order the
turns are taken, the workers go on as the specification allows. In any continuation of the run
a worker that takes as many turns as there are bytes to come has replied to all that its client
has asked for. -/
theorem sessions_linearize {W : Type} [DecidableEq W] {kernel : W → SendFn} {malloc : W → Malloc}
    {garbage : W → ℕ → Option Garbage} (hsend : ∀ w, (kernel w).Succeeds)
    (hmalloc : ∀ w, (malloc w).Succeeds)
    (hgarbage : ∀ w i, ∃ g, garbage w i = some g ∧ Suits g) {es : List ObjEntry} {s : Objects}
    (hstore : Stacked es s) (hes : ∀ e ∈ es, Servable e) (q : Option (List (List UInt8)))
    (bufs : W → Memory) {acts : List (Act W)} (hfits : ∀ w r, .send w r ∈ acts → r.Fits) :
    ∃ t u, Run.run (System.step kernel malloc garbage) (.init bufs s q) acts = some t ∧
      Run.Steps Service.Step ⟨es, q, fun _ => ⟨none, []⟩⟩ acts u ∧ Refines malloc t u ∧
      ∀ acts' : List (Act W), (∀ w r, .send w r ∈ acts' → r.Fits) →
        ∃ t' u', Run.run (System.step kernel malloc garbage) t acts' = some t' ∧
          Run.Steps Service.Step u acts' u' ∧ Refines malloc t' u' ∧
          ∀ w, (t.conn w).input.bytes.length ≤ acts'.countP (Act.serves w) →
            (t.asked w).length ≤ (u'.session w).replies.length := by
  have hinit : Refines malloc (.init bufs s q) ⟨es, q, fun _ => ⟨none, []⟩⟩ :=
    ⟨hstore, hes, rfl, fun _ => rfl, fun _ => rfl,
      fun _ => .idle rfl ⟨rfl, rfl, rfl⟩ rfl rfl rfl Message.Replied.nil⟩
  obtain ⟨t, u, hrun, hsteps, h, -⟩ := hinit.run hsend hmalloc hgarbage hfits
  exact ⟨t, u, hrun, hsteps, h, fun acts' hfits' => h.run hsend hmalloc hgarbage hfits'⟩

/-- The one client puts an object, and the other gets it. -/
def putThenGet : List (Act Bool) :=
  [.send true ⟨.put (cstr [107]) [7], [ascii "Host: a", ascii "Content-Length: 1"],
      [⟨ascii "PUT /data/k HTTP/1.1\r\nHost: a\r\nContent-Length: 1\r\n\r\n" ++ [7],
        by decide⟩]⟩,
    .serve true,
    .send false ⟨.get (cstr [107]), [ascii "Host: a"],
      [⟨ascii "GET /data/k HTTP/1.1\r\nHost: a\r\n\r\n", by decide⟩]⟩,
    .serve false]

theorem sessions_linearize_put_get :
    ∃ t u, Run.run (System.step (fun _ => .whole) (fun _ => .plenty)
        fun _ _ => some ⟨UInt64.ofNat MAX_CHUNK_SIZE, 0, fun _ => 0⟩)
        (.init (fun _ _ => 0) .init none) putThenGet = some t ∧
      Run.Steps Service.Step ⟨[], none, fun _ => ⟨none, []⟩⟩ putThenGet u ∧
      Refines (fun _ => .plenty) t u := by
  have hfits : ∀ w r, .send w r ∈ putThenGet → r.Fits := by
    intro w r hr
    rw [putThenGet] at hr
    simp only [List.mem_cons, List.not_mem_nil, Act.send.injEq, reduceCtorEq, false_or,
      or_false] at hr
    obtain ⟨-, rfl⟩ | ⟨-, rfl⟩ := hr
    all_goals
      exact ⟨by decide, ⟨by decide, by decide, ⟨by decide, List.all_eq_true.mp (by decide)⟩,
        by decide, by decide, by decide, by decide, by decide, by decide, by decide⟩, by decide,
        noCut_singleton _⟩
  obtain ⟨t, u, hrun, hsteps, h, -⟩ := sessions_linearize
    (fun _ => SendFn.whole_succeeds) (fun _ => Malloc.plenty_succeeds)
    (fun _ _ => ⟨⟨UInt64.ofNat MAX_CHUNK_SIZE, 0, fun _ => 0⟩, rfl, rfl, by decide, by decide⟩)
    ⟨[], [], Rep.init, rfl⟩ (fun e he => absurd he List.not_mem_nil) none
    (fun _ _ => 0) hfits
  exact ⟨t, u, hrun, hsteps, h⟩

end Web
end Osrv
