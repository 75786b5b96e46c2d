import Osrv.Client.Sessions
import Osrv.Fronts.Framing
import Osrv.Http.Written

/-!
# What clients ask for

The requests that the handler answers with more than an error: `GET`, `HEAD`, `PUT` and
`DELETE` of an object and `POST` of work. What they come to is said on the list of entries and
the queue of the work interface, and by `Ask.handled` this is what the handler does: it sends
one response, which the client reads as the reply, whatever follows it.
-/

namespace Osrv
namespace Web

open Bytes Net Obj Sfs Http Fronts
open Client (Stacked visible)

/-! ### The specification -/

inductive Ask
  | get (key : CString)
  | head (key : CString)
  | delete (key : CString)
  | put (key : CString) (bs : List UInt8)
  | work (path : CString) (bs : List UInt8)

namespace Ask

def method : Ask → Method
  | get _ => .GET
  | head _ => .HEAD
  | delete _ => .DELETE
  | put _ _ => .PUT
  | work _ _ => .POST

def target : Ask → CString
  | get key | head key | delete key | put key _ => cstr (dataPrefix ++ key.bytes)
  | work path _ => path

def body : Ask → List UInt8
  | put _ bs | work _ bs => bs
  | _ => []

/-- The target names the key or the interface, and an object that is put has bytes. -/
def Names : Ask → Prop
  | get key | head key | delete key => (47 : UInt8) ∉ key.bytes ∧ (63 : UInt8) ∉ key.bytes
  | put key bs => ((47 : UInt8) ∉ key.bytes ∧ (63 : UInt8) ∉ key.bytes) ∧ bs ≠ []
  | work path _ => under workPrefix path = true

instance (a : Ask) : Decidable a.Names :=
  match a with
  | get _ | head _ | delete _ => inferInstanceAs (Decidable (_ ∧ _))
  | put _ _ => inferInstanceAs (Decidable (_ ∧ _))
  | work _ _ => inferInstanceAs (Decidable (_ = _))

/-- What the client knows of the response. -/
def exchange (a : Ask) : Message.Exchange := ⟨a.method = .HEAD, false, false⟩

/-- The call of `obj.c` that the request leads to. -/
def call : Ask → Option (Obj.Op (Option (List UInt8)) SEXP)
  | get key | head key => some (.get key false)
  | delete key => some (.get key true)
  | put key bs => some (.add key none (some bs) bs.length)
  | work _ _ => none

def entries (a : Ask) (es : List ObjEntry) : List ObjEntry := (a.call.map (listStep es)).getD es

/-- Work that is not empty is queued, if there is a queue. -/
def queue (a : Ask) (q : Option (List (List UInt8))) : Option (List (List UInt8)) :=
  match a with
  | work _ bs => if bs = [] then q else q.map (· ++ [bs])
  | _ => q

end Ask

/-- What is served of an entry: its bytes, or the stream of its value. -/
def contents (e : ObjEntry) : List UInt8 := e.obj.getD (e.sWhat.elim [] emit)

def Ask.reply (es : List ObjEntry) (q : Option (List (List UInt8))) : Ask → Message.Reply
  | get key => (visible key es).elim ⟨404, []⟩ fun e => ⟨200, contents e⟩
  | head key | delete key => ⟨if (visible key es).isSome then 200 else 404, []⟩
  | put _ _ => ⟨200, []⟩
  | work _ bs => ⟨if q = none then 404 else if bs = [] then 403 else 200, []⟩

/-- An entry that can be served on a connection that is kept open. -/
def Servable (e : ObjEntry) : Prop :=
  Client.Sendable e ∧ ∀ bs, e.obj = some bs → bs.length < 2 ^ 31

/-- Memory that a value can be streamed out of, see `http_store`. -/
def Suits (g : Garbage) : Prop :=
  g.pos = 0 ∧ 2 * MIN_INPLACE_SIZE - 2 ≤ g.len.toNat ∧ g.len.toNat ≤ MAX_CHUNK_SIZE

/-! ### The handler -/

/-- **A request is handled**: one response goes out, which is read as the reply `r`. -/
structure Handled (x : Message.Exchange) (w w' : Server) (r : Message.Reply)
    (es : List ObjEntry) (q : Option (List (List UInt8))) : Prop where
  response : ∃ response, w'.conn.out = w.conn.out ++ response ∧
    ∀ more, Message.readReply x (response ++ more) = some (r, more)
  stacked : Stacked es w'.store
  queue : w'.queue = q
  fault : w'.fault = false

section Handler

variable {send : SendFn} {malloc : Malloc} {garbage : ℕ → Option Garbage} {w : Server}
  {es : List ObjEntry} {x : Message.Exchange} {attr : Attr} {key : CString}

theorem Suits.overrun {g : Garbage} (h : Suits g) (v : SEXP) :
    ((sfs_store send (StoreApi.start ⟨0, []⟩ g) v).sendLast send).overrun = false := by
  obtain ⟨hpos, hlow, hhigh⟩ := h
  have hstart : Within (StoreApi.start ⟨0, []⟩ g) := by
    refine ⟨hlow, hhigh, ?_, rfl⟩
    rw [show (StoreApi.start ⟨0, []⟩ g).pos = 0 from hpos]
    exact Nat.zero_le _
  exact (hstart.foldl (store v)).sendLast.overrun

/-- A response without a body. -/
theorem statusOnly_handled (hs : send.Succeeds) (h : Stacked es w.store) (hok : w.fault = false)
    {code : ℕ} {txt : List UInt8} (hcode : code < 1000) (htxt : Text txt) :
    Handled x w (statusOnly send attr code txt w) ⟨code, []⟩ es w.queue := by
  obtain ⟨k, hk⟩ := statusOnly_sends hs hcode htxt attr w
  rw [hk]
  refine ⟨⟨_, rfl, fun more => ?_⟩, h, rfl, hok⟩
  rw [(writable_status hcode htxt).reply, readBody_status]
  rfl

theorem Handled.of_conn {w₁ w' : Server} {r : Message.Reply} {q : Option (List (List UInt8))}
    (h : Handled x w₁ w' r es q) (hconn : w₁.conn = w.conn) : Handled x w w' r es q := by
  obtain ⟨hresponse, hstacked, hqueue, hfault⟩ := h
  rw [hconn] at hresponse
  exact ⟨hresponse, hstacked, hqueue, hfault⟩

/-- Bytes are sent with their number. -/
theorem raw_handled (hs : send.Succeeds) (h : Stacked es w.store) (hok : w.fault = false)
    {a : Heap.Addr} {cell : Heap.Cell ObjEntry} {bs : List UInt8}
    (hget : obj_get key false w.store = some (some a, w.store))
    (hload : w.store.heap.load a = some cell) (hobj : cell.val.obj = some bs)
    (hlen : bs.length = cell.val.len) (hsmall : bs.length < 2 ^ 31) (hx : x.head = false) :
    Handled x w (getData send garbage true attr key w) ⟨200, bs⟩ es w.queue := by
  obtain ⟨k, hrun⟩ := getData_raw garbage hs hget hload hobj hlen attr
  rw [hrun]
  refine ⟨⟨_, rfl, fun more => ?_⟩, h, rfl, hok⟩
  have hint := toInt_eq bs.length
  have hmod : bs.length % 2 ^ 32 = bs.length := Nat.mod_eq_of_lt (by omega)
  rw [hmod, if_pos hsmall] at hint
  have hneg : ¬ toInt bs.length < 0 := by omega
  obtain ⟨hplain, hlength⟩ := fields_length octetStream (by decide) hneg
  have hnum : (toInt bs.length).toNat = bs.length := by omega
  rw [hnum] at hlength
  rw [objectHead, List.append_assoc, (writable_object bs.length).reply,
    Message.readBody_length hx hplain hlength, if_pos (by simp), List.take_left, List.drop_left]
  rfl

/-- A value is streamed. -/
theorem value_handled (hs : send.Succeeds) (h : Stacked es w.store) (hok : w.fault = false)
    (hgarbage : ∀ i, ∃ g, garbage i = some g ∧ Suits g)
    {a : Heap.Addr} {cell : Heap.Cell ObjEntry} {v : SEXP}
    (hget : obj_get key false w.store = some (some a, w.store))
    (hload : w.store.heap.load a = some cell) (hobj : cell.val.obj = none)
    (hvalue : cell.val.sWhat = some v) (hx : x.head = false) (hversion : x.http10 = false) :
    Handled x w (getData send garbage true attr key w) ⟨200, emit v⟩ es w.queue := by
  obtain ⟨k, hrun⟩ := getData_stream garbage hs hget hload hobj hvalue attr
  obtain ⟨g, hg, hsuits⟩ := hgarbage w.allocs
  obtain ⟨api, k', chunks, hstore, hinside, hne, hflat⟩ :=
    http_store_encodes (hs.from k) (hsuits.overrun v)
  rw [hrun, streamObject_eq]
  simp only [hg, hstore]
  refine ⟨⟨objectHead attr (-1) [chunkedLine] ++ Chunked.encode chunks, ?_, fun more => ?_⟩, h,
    rfl, ?_⟩
  · rw [Conn.behind, List.append_assoc]
  · rw [hsuits.1] at hflat
    have hbody : chunks.flatten = emit v := hflat
    rw [objectHead, List.append_assoc, writable_chunked.reply,
      Message.readBody_chunked hx (fields_chunked octetStream (by decide)), if_pos hversion,
      Chunked.decode_encode hne, Option.map_some, hbody]
    rfl
  · rw [hok, Option.any_some, hinside]
    rfl

/-- **`GET`** -/
theorem get_handled (hs : send.Succeeds) (h : Stacked es w.store)
    (hes : ∀ e ∈ es, Servable e) (hok : w.fault = false)
    (hgarbage : ∀ i, ∃ g, garbage i = some g ∧ Suits g) :
    Handled (Ask.get key).exchange w (getData send garbage true attr key w)
      ((Ask.get key).reply es w.queue) es w.queue := by
  rw [Ask.reply]
  cases h.looked key with
  | missing hnone hget =>
    rw [hnone, getData, hget]
    exact statusOnly_handled (w := { w with store := w.store }) hs h hok (by decide)
      ⟨by decide, by decide⟩
  | @found e a next hmem hsome hget hload =>
    obtain ⟨⟨hserv, hsized⟩, hsmall⟩ := hes e hmem
    rw [hsome, Option.elim_some, contents]
    cases hobj : e.obj with
    | some bs =>
      exact raw_handled hs h hok hget hload hobj (hsized bs hobj) (hsmall bs hobj) rfl
    | none =>
      obtain ⟨v, hv⟩ := hserv.value hobj
      rw [hv]
      exact value_handled hs h hok hgarbage hget hload hobj hv rfl rfl

variable (garbage) in
/-- **`HEAD`** -/
theorem head_handled (hs : send.Succeeds) (h : Stacked es w.store) (hok : w.fault = false) :
    Handled (Ask.head key).exchange w (getData send garbage false attr key w)
      ((Ask.head key).reply es w.queue) es w.queue := by
  rw [Ask.reply]
  cases h.looked key with
  | missing hnone hget =>
    rw [hnone, getData, hget]
    exact statusOnly_handled (w := { w with store := w.store }) hs h hok (by decide)
      ⟨by decide, by decide⟩
  | found hmem hsome hget hload =>
    obtain ⟨n, k, hrun⟩ := getData_head garbage hs hget hload attr
    rw [hsome, hrun]
    refine ⟨⟨_, rfl, fun more => ?_⟩, h, rfl, hok⟩
    rw [objectHead, (writable_object n).reply, Message.readBody_head rfl]
    rfl

/-- **`DELETE`** -/
theorem delete_handled (hs : send.Succeeds) (h : Stacked es w.store) (hok : w.fault = false) :
    Handled (Ask.delete key).exchange w (deleteData send attr key w)
      ((Ask.delete key).reply es w.queue) ((Ask.delete key).entries es) w.queue := by
  obtain ⟨o, s', hget, hsome, h'⟩ := h.removed key
  rw [Ask.reply, ← hsome]
  simp only [deleteData, hget]
  cases o with
  | some a =>
    exact (statusOnly_handled (w := { w with store := s' }) hs h' hok (by decide)
      ⟨by decide, by decide⟩).of_conn rfl
  | none =>
    exact (statusOnly_handled (w := { w with store := s' }) hs h' hok (by decide)
      ⟨by decide, by decide⟩).of_conn rfl

/-- **`PUT`** -/
theorem put_handled (hs : send.Succeeds) (h : Stacked es w.store) (hok : w.fault = false)
    {req : HttpRequest} {bs : List UInt8} (hne : bs ≠ [])
    (hlength : req.content_length = bs.length)
    (hbytes : bodyBytes req = if bs = [] then none else some bs)
    (hsmall : bs.length < 2 ^ 31) :
    Handled (Ask.put key bs).exchange w (Http.putData send key req w).2
      ((Ask.put key bs).reply es w.queue) ((Ask.put key bs).entries es) w.queue := by
  have hlen : toObjLen req.content_length = bs.length := by
    rw [hlength, toObjLen]
    omega
  rw [if_neg hne] at hbytes
  rw [Http.putData]
  simp only [hbytes, hlen]
  exact (statusOnly_handled (w := { w with store := _ }) hs (h.added key bs) hok (by decide)
    ⟨by decide, by decide⟩).of_conn rfl

/-- **`POST`** of work. -/
theorem work_handled (hs : send.Succeeds) (hmalloc : malloc.Succeeds) (h : Stacked es w.store)
    (hok : w.fault = false) {path : CString} {req : HttpRequest} {bs : List UInt8}
    (hlength : req.content_length = bs.length)
    (hbytes : bodyBytes req = if bs = [] then none else some bs) :
    Handled (Ask.work path bs).exchange w (pushWork send malloc req w).2
      ((Ask.work path bs).reply es w.queue) es ((Ask.work path bs).queue w.queue) := by
  rw [Ask.reply, Ask.queue]
  unfold pushWork
  cases hqueue : w.queue with
  | none =>
    rw [if_pos rfl]
    have hstatus : Handled (Ask.work path bs).exchange w
        (statusOnly send req.attr 404 (ascii "No Queue") w) ⟨404, []⟩ es w.queue :=
      statusOnly_handled hs h hok (by decide) ⟨by decide, by decide⟩
    rw [hqueue] at hstatus
    rw [Option.map_none, ite_self]
    exact hstatus
  | some events =>
    rw [if_neg (Option.some_ne_none _)]
    by_cases hnil : bs = []
    · rw [if_pos hnil] at hbytes
      rw [if_pos hnil, if_pos hnil, hbytes]
      have hstatus : Handled (Ask.work path bs).exchange w
          (statusOnly send req.attr 403 (ascii "Invalid payload") w) ⟨403, []⟩ es w.queue :=
        statusOnly_handled hs h hok (by decide) ⟨by decide, by decide⟩
      rw [hqueue] at hstatus
      exact hstatus
    · rw [if_neg hnil] at hbytes
      rw [if_neg hnil, if_neg hnil, hbytes]
      have hpos : ¬ req.content_length < 1 := by
        have hlen := List.length_pos_of_ne_nil hnil
        omega
      obtain ⟨mem, hmem⟩ := hmalloc w.allocs sizeof_ev_entry (by decide)
      simp only [if_neg hpos, hmem, Option.isSome_some, if_true, Option.map_some]
      exact (statusOnly_handled (w := { w with allocs := w.allocs + 1, queue := _ }) hs h hok
        (by decide) ⟨by decide, by decide⟩).of_conn rfl

/-! ### Every request -/

theorem data_bytes (key : CString) :
    (cstr (dataPrefix ++ key.bytes)).bytes = dataPrefix ++ key.bytes := by
  rw [cstr_bytes, List.takeWhile_eq_self_iff]
  intro b hb
  rw [bne_iff_ne]
  rintro rfl
  rw [List.mem_append] at hb
  obtain hb | hb := hb
  · revert hb
    decide
  · exact key.zero_notMem hb

theorem under_data (key : CString) : under dataPrefix (cstr (dataPrefix ++ key.bytes)) = true := by
  rw [under, data_bytes, List.isPrefixOf_iff_prefix]
  exact List.prefix_append _ _

theorem keyOf_data (h : (47 : UInt8) ∉ key.bytes ∧ (63 : UInt8) ∉ key.bytes) :
    keyOf (cstr (dataPrefix ++ key.bytes)) = key := by
  have hall : (key.bytes.takeWhile fun c => c != 47 && c != 63) = key.bytes := by
    rw [List.takeWhile_eq_self_iff]
    intro b hb
    rw [Bool.and_eq_true, bne_iff_ne, bne_iff_ne]
    exact ⟨fun heq => h.1 (heq ▸ hb), fun heq => h.2 (heq ▸ hb)⟩
  have hdrop : (dataPrefix ++ key.bytes).drop 6 = key.bytes := rfl
  refine CString.ext ?_
  rw [keyOf, data_bytes, hdrop, hall, cstr_bytes]
  exact List.takeWhile_eq_self_iff.mpr fun b hb => bne_iff_ne.mpr fun heq =>
    key.zero_notMem (heq ▸ hb)

/-- **The handler does what the request asks for.** -/
theorem Ask.handled {a : Ask} {req : HttpRequest} (hreq : Asks req a.method a.target a.body)
    (hnames : a.Names) (hsmall : a.body.length < 2 ^ 31) (hs : send.Succeeds)
    (hmalloc : malloc.Succeeds) (hgarbage : ∀ i, ∃ g, garbage i = some g ∧ Suits g)
    (h : Stacked es w.store) (hes : ∀ e ∈ es, Servable e) (hok : w.fault = false) :
    Handled a.exchange w (http_process send malloc garbage req w).2.2 (a.reply es w.queue)
      (a.entries es) (a.queue w.queue) := by
  obtain ⟨hpath, hmethod, -, hlength, hbytes⟩ := hreq
  rw [http_process, hpath]
  cases a with
  | get key =>
    simp only [Ask.target, under_data, if_true, keyOf_data hnames, dataRequest, hmethod]
    exact get_handled hs h hes hok hgarbage
  | head key =>
    simp only [Ask.target, under_data, if_true, keyOf_data hnames, dataRequest, hmethod]
    exact head_handled garbage hs h hok
  | delete key =>
    simp only [Ask.target, under_data, if_true, keyOf_data hnames, dataRequest, hmethod]
    exact delete_handled hs h hok
  | put key bs =>
    simp only [Ask.target, under_data, if_true, keyOf_data hnames.1, dataRequest, hmethod]
    exact put_handled hs h hok hnames.2 hlength hbytes hsmall
  | work path bs =>
    have hother : under dataPrefix path = false := by
      have hwork : under workPrefix path = true := hnames
      rw [under, List.isPrefixOf_iff_prefix] at hwork
      obtain ⟨rest, hrest⟩ := hwork
      rw [under, ← hrest]
      rfl
    have hunder : under workPrefix path = true := hnames
    have hpost : req.method = some .POST := hmethod
    simp only [Ask.target, hother, Bool.false_eq_true, if_false, otherRequest, hunder, if_true,
      hpost]
    exact work_handled hs hmalloc h hok hlength hbytes

/-- What can be served stays so. -/
theorem Ask.servable {a : Ask} (hes : ∀ e ∈ es, Servable e) (hsmall : a.body.length < 2 ^ 31) :
    ∀ e ∈ a.entries es, Servable e := by
  cases a with
  | get key => exact hes
  | head key => exact hes
  | delete key => exact fun e he => hes e (List.mem_of_mem_eraseP he)
  | work path bs => exact hes
  | put key bs =>
    intro e he
    obtain rfl | he := List.mem_cons.mp he
    · refine ⟨⟨Or.inl ⟨bs, rfl, rfl⟩, fun bytes h => ?_⟩, fun bytes h => ?_⟩
      · obtain rfl := Option.some.inj h
        rfl
      · obtain rfl := Option.some.inj h
        exact hsmall
    · exact hes e he

end Handler

end Web
end Osrv
