import AsioQuickjs.Bytes
import AsioQuickjs.Trace
import Mathlib.Data.List.Count
import Mathlib.Logic.Function.Basic

/-! The sockets of a curl client in `curl_runtime.cpp`: curl says what it wants of a socket and
keeps a raw pointer to the object that watches it, the object has waits outstanding, and a wait
that is over calls curl, which may call back at any time. File descriptors are used again. -/
namespace AsioQuickjs
namespace CurlWatches

inductive Dir
  | read | write
  deriving DecidableEq

/-- `CURL_POLL_IN` and `CURL_POLL_OUT`. -/
def Dir.pollBit : Dir → ℕ
  | .read => 1
  | .write => 2

/-- `CURL_CSELECT_IN` and `CURL_CSELECT_OUT`. -/
def Dir.evBit : Dir → ℕ
  | .read => 1
  | .write => 2

/-- `CURL_POLL_REMOVE`. -/
def pollRemove : ℕ := 4

structure CurlWatch where
  fd : ℕ := 0
  action : ℕ := 0
  readArmed : Bool := false
  writeArmed : Bool := false

def CurlWatch.armed (w : CurlWatch) : Dir → Bool
  | .read => w.readArmed
  | .write => w.writeArmed

def CurlWatch.setArmed (w : CurlWatch) (d : Dir) (b : Bool) : CurlWatch :=
  match d with
  | .read => { w with readArmed := b }
  | .write => { w with writeArmed := b }

/-- What curl asks of the watch in this direction. -/
def CurlWatch.Wants (w : CurlWatch) (d : Dir) : Prop := w.action &&& d.pollBit ≠ 0

instance (w : CurlWatch) (d : Dir) : Decidable (w.Wants d) :=
  inferInstanceAs (Decidable (w.action &&& d.pollBit ≠ 0))

/-- The client, its watches by their number, the pointers that curl keeps, and the waits whose
handlers have not run. `running` is the handler that is inside of `on_socket_action`; `timer` is
the wait of the timer that was not cancelled, and `stale` are those that were. -/
structure Client where
  watches : ℕ → Option ℕ := fun _ => none
  objects : ℕ → CurlWatch := fun _ => {}
  made : ℕ := 0
  socketp : ℕ → Option ℕ := fun _ => none
  waits : List (ℕ × Dir) := []
  running : Option (ℕ × Dir) := none
  timer : Bool := false
  stale : ℕ := 0
  stopping : Bool := false
  dangling : Bool := false

namespace Client

def set (c : Client) (i : ℕ) (w : CurlWatch) : Client :=
  { c with objects := Function.update c.objects i w }

@[simp] theorem set_self (c : Client) (i : ℕ) (w : CurlWatch) : (c.set i w).objects i = w :=
  Function.update_self ..

theorem set_of_ne (c : Client) {i j : ℕ} (h : j ≠ i) (w : CurlWatch) :
    (c.set i w).objects j = c.objects j :=
  Function.update_of_ne h ..

/-- `CurlWatch::alive`. -/
def Alive (c : Client) (i : ℕ) : Prop := c.watches (c.objects i).fd = some i

instance (c : Client) (i : ℕ) : Decidable (c.Alive i) :=
  inferInstanceAs (Decidable (c.watches (c.objects i).fd = some i))

/-- Something owns the watch: the client, a handler that has not run, or the one that runs. -/
def held (c : Client) (i : ℕ) : Bool :=
  decide (c.Alive i) || c.waits.any (·.1 = i) || c.running.any (·.1 = i)

/-- `CurlWatch::arm_dir`. -/
def armDir (c : Client) (i : ℕ) (d : Dir) : Client :=
  if ¬(c.objects i).Wants d ∨ (c.objects i).armed d = true then c
  else { c.set i ((c.objects i).setArmed d true) with waits := (i,d)::c.waits }

/-- `CurlWatch::arm`. -/
def arm (c : Client) (i : ℕ) : Client :=
  if c.stopping then c else (c.armDir i .read).armDir i .write

/-- `CurlWatch::update`. -/
def update (c : Client) (i what : ℕ) : Client :=
  (c.set i { c.objects i with action := what }).arm i

/-- `CurlWatch::dispose`. The handlers of its waits are still to run. -/
def dispose (c : Client) (i : ℕ) : Client := c.set i { c.objects i with action := 0 }

/-- The handler of a wait begins: `armed = false`. -/
def taken (c : Client) (i : ℕ) (d : Dir) : Client :=
  { c.set i ((c.objects i).setArmed d false) with waits := c.waits.erase (i,d) }

@[simp] theorem taken_self (c : Client) (i : ℕ) (d : Dir) :
    (c.taken i d).objects i = (c.objects i).setArmed d false := c.set_self ..

theorem taken_of_ne (c : Client) {i j : ℕ} (h : j ≠ i) (d : Dir) :
    (c.taken i d).objects j = c.objects j := c.set_of_ne h _

/-- `if (self->alive()) self->arm();`. -/
def rearm (c : Client) (i : ℕ) : Client := if c.Alive i then c.arm i else c

def follow (c : Client) (i : ℕ) : Client := { c with dangling := c.dangling || !c.held i }

/-- `std::make_shared<CurlWatch>(client, s)`, in the map and in curl. -/
def make (c : Client) (s : ℕ) : Client :=
  { c.set c.made { fd := s } with
    made := c.made+1
    watches := Function.update c.watches s (some c.made)
    socketp := Function.update c.socketp s (some c.made) }

/-- `curl_socket_callback`. Curl forgets the pointer of a socket that it removes. -/
def socketCallback (c : Client) (s what : ℕ) (assigned : Bool) : Client :=
  if what = pollRemove then
    match c.socketp s with
    | none => c
    | some old =>
      { (c.follow old).dispose old with
        watches := Function.update c.watches s none
        socketp := Function.update c.socketp s none }
  else
    match c.socketp s with
    | none => if assigned then (c.make s).update c.made what else c
    | some _ =>
      match c.watches s with
      | none => c
      | some i => c.update i what

/-- `Client::arm_timer`. -/
def armTimer (c : Client) (timeout : ℤ) : Client :=
  { c with
    stale := if c.timer then c.stale+1 else c.stale
    timer := !(decide (timeout < 0) || c.stopping) }

/-- `Client::shutdown`: what is in the map is disposed of. -/
def shutdown (c : Client) : Client :=
  { c with
    stopping := true
    stale := if c.timer then c.stale+1 else c.stale
    timer := false
    objects := fun i => if c.Alive i then { c.objects i with action := 0 } else c.objects i
    watches := fun _ => none }

end Client

/-- Curl calls back; the handler of a wait begins, with an error or without, and comes back from
`on_socket_action`; the timer's handler runs, that of the wait that counts or of a cancelled
one; a transfer is added or the client notified; the client shuts down. -/
inductive Action
  | socketCallback (s what : ℕ) (assigned : Bool)
  | timerCallback (timeout : ℤ)
  | wait (i : ℕ) (d : Dir) (ec : Bool)
  | handled
  | timer
  | stale (err : Bool)
  | notify
  | shutdown

def step (c : Client) : Action → Option Client
  | .socketCallback s what assigned => some (c.socketCallback s what assigned)
  | .timerCallback timeout => some (c.armTimer timeout)
  | .wait i d ec =>
    if c.running = none ∧ (i,d) ∈ c.waits then
      if ec = true ∨ c.stopping = true then some (c.taken i d)
      else if (c.objects i).Wants d then some { c.taken i d with running := some (i,d) }
      else some ((c.taken i d).rearm i)
    else none
  | .handled =>
    match c.running with
    | none => none
    | some (i,_) => some ({ c with running := none }.rearm i)
  | .timer => if c.timer = true then some { c with timer := false } else none
  | .stale _ => if 0 < c.stale then some { c with stale := c.stale-1 } else none
  | .notify => some c
  | .shutdown => some c.shutdown

/-- A call of `curl_multi_socket_action`, for a socket or for a timeout. -/
inductive Drive
  | socket (fd ev : ℕ)
  | timeout
  deriving DecidableEq

/-- The calls of `Client::on_socket_action` that get through to curl. -/
def drives (c : Client) : Action → List Drive
  | .wait i d ec =>
    if ec = false ∧ c.stopping = false ∧ (c.objects i).Wants d then
      [.socket (c.objects i).fd d.evBit]
    else []
  | .timer => if c.stopping then [] else [.timeout]
  | .stale err => if err = true ∨ c.stopping = true then [] else [.timeout]
  | .notify => if c.stopping then [] else [.timeout]
  | _ => []

def start : Client := {}

/-- What a step can do: a callback of curl; something about the timer alone; the handler of a
wait, which fails, calls curl or has nothing to tell it; the end of such a handler; shutdown. -/
theorem step_cases {c t : Client} {a : Action} (h : step c a = some t) :
    (∃ s what assigned, a = .socketCallback s what assigned ∧
      t = c.socketCallback s what assigned) ∨
    (∃ timer stale, t = { c with timer := timer, stale := stale }) ∨
    (∃ i d ec, a = .wait i d ec ∧ c.running = none ∧ (i,d) ∈ c.waits ∧
      ((ec = true ∨ c.stopping = true) ∧ t = c.taken i d ∨
        t = { c.taken i d with running := some (i,d) } ∨ t = (c.taken i d).rearm i)) ∨
    (∃ i d, c.running = some (i,d) ∧ t = { c with running := none }.rearm i) ∨
    t = c.shutdown := by
  cases a with
  | socketCallback s what assigned =>
    exact .inl ⟨s,what,assigned,rfl,(Option.some.inj h).symm⟩
  | timerCallback timeout => exact .inr (.inl ⟨_,_,(Option.some.inj h).symm⟩)
  | wait i d ec =>
    simp only [step] at h
    split at h
    · next hen =>
      refine .inr (.inr (.inl ⟨i,d,ec,rfl,hen.1,hen.2,?_⟩))
      split at h
      · next hor => exact .inl ⟨hor,(Option.some.inj h).symm⟩
      · split at h
        · exact .inr (.inl (Option.some.inj h).symm)
        · exact .inr (.inr (Option.some.inj h).symm)
    · cases h
  | handled =>
    simp only [step] at h
    split at h
    · cases h
    · next i d hrun => exact .inr (.inr (.inr (.inl ⟨i,d,hrun,(Option.some.inj h).symm⟩)))
  | timer =>
    simp only [step] at h
    split at h
    · exact .inr (.inl ⟨_,_,(Option.some.inj h).symm⟩)
    · cases h
  | stale err =>
    simp only [step] at h
    split at h
    · exact .inr (.inl ⟨_,_,(Option.some.inj h).symm⟩)
    · cases h
  | notify => exact .inr (.inl ⟨_,_,(Option.some.inj h).symm⟩)
  | shutdown => exact .inr (.inr (.inr (.inr (Option.some.inj h).symm)))

@[simp] theorem setArmed_fd (w : CurlWatch) (d : Dir) (b : Bool) : (w.setArmed d b).fd = w.fd := by
  cases d <;> rfl

@[simp] theorem setArmed_action (w : CurlWatch) (d : Dir) (b : Bool) :
    (w.setArmed d b).action = w.action := by
  cases d <;> rfl

@[simp] theorem armed_setArmed (w : CurlWatch) (d : Dir) (b : Bool) :
    (w.setArmed d b).armed d = b := by
  cases d <;> rfl

theorem armed_setArmed_of_ne (w : CurlWatch) {d e : Dir} (h : e ≠ d) (b : Bool) :
    (w.setArmed d b).armed e = w.armed e := by
  cases d <;> cases e <;> first | rfl | exact absurd rfl h

/-- Only flags are set and waits added: of `i`, and of no other watch. -/
structure Arms (i : ℕ) (c t : Client) : Prop where
  watches : t.watches = c.watches
  made : t.made = c.made
  socketp : t.socketp = c.socketp
  running : t.running = c.running
  stopping : t.stopping = c.stopping
  dangling : t.dangling = c.dangling
  fd : ∀ j, (t.objects j).fd = (c.objects j).fd
  action : ∀ j, (t.objects j).action = (c.objects j).action
  armed : ∀ j d, (c.objects j).armed d = true → (t.objects j).armed d = true
  other : ∀ j, j ≠ i → t.objects j = c.objects j

theorem Arms.refl (i : ℕ) (c : Client) : Arms i c c :=
  ⟨rfl,rfl,rfl,rfl,rfl,rfl,fun _ => rfl,fun _ => rfl,fun _ _ h => h,fun _ _ => rfl⟩

theorem Arms.trans {i : ℕ} {c t u : Client} (h : Arms i c t) (h' : Arms i t u) : Arms i c u :=
  ⟨h'.watches.trans h.watches,h'.made.trans h.made,h'.socketp.trans h.socketp,
    h'.running.trans h.running,h'.stopping.trans h.stopping,h'.dangling.trans h.dangling,
    fun j => (h'.fd j).trans (h.fd j),fun j => (h'.action j).trans (h.action j),
    fun j d hd => h'.armed j d (h.armed j d hd),fun j hj => (h'.other j hj).trans (h.other j hj)⟩

theorem armDir_arms (c : Client) (i : ℕ) (d : Dir) : Arms i c (c.armDir i d) := by
  rw [Client.armDir]
  split
  · exact Arms.refl i c
  · refine ⟨rfl,rfl,rfl,rfl,rfl,rfl,fun j => ?_,fun j => ?_,fun j e he => ?_,
      fun j hj => c.set_of_ne hj _⟩
    all_goals
      rcases eq_or_ne j i with rfl | hj
      · simp only [Client.set_self]
        first
          | exact setArmed_fd ..
          | exact setArmed_action ..
          | (rcases eq_or_ne e d with rfl | hed
             · exact armed_setArmed ..
             · rwa [armed_setArmed_of_ne _ hed])
      · simp only [Client.set_of_ne _ hj]
        try assumption

theorem arm_arms (c : Client) (i : ℕ) : Arms i c (c.arm i) := by
  rw [Client.arm]
  split
  · exact Arms.refl i c
  · exact (armDir_arms c i .read).trans (armDir_arms _ i .write)

theorem Arms.wants {i j : ℕ} {c t : Client} (h : Arms i c t) (d : Dir) :
    (t.objects j).Wants d ↔ (c.objects j).Wants d := by
  rw [CurlWatch.Wants,CurlWatch.Wants,h.action]

theorem Arms.alive {i j : ℕ} {c t : Client} (h : Arms i c t) : t.Alive j ↔ c.Alive j := by
  rw [Client.Alive,Client.Alive,h.watches,h.fd]

/-- A direction has a wait outstanding exactly if its flag is set, and never two. -/
def Counted (c : Client) : Prop :=
  ∀ i d, c.waits.count (i,d) = ((c.objects i).armed d).toNat

theorem armDir_counted {c : Client} (h : Counted c) (i : ℕ) (d : Dir) :
    Counted (c.armDir i d) := by
  rw [Client.armDir]
  split
  · exact h
  · next hno =>
    obtain ⟨-,hflag⟩ := not_or.mp hno
    have hzero : c.waits.count (i,d) = 0 := by
      rw [h i d]
      simp [Bool.not_eq_true _ |>.mp hflag]
    intro j e
    rcases eq_or_ne j i with rfl | hj
    · simp only [Client.set_self]
      rcases eq_or_ne e d with rfl | he
      · rw [List.count_cons_self,hzero,armed_setArmed]
        rfl
      · rw [armed_setArmed_of_ne _ he,List.count_cons_of_ne,h j e]
        intro heq
        exact he (congrArg Prod.snd heq).symm
    · simp only [Client.set_of_ne _ hj]
      rw [List.count_cons_of_ne,h j e]
      intro heq
      exact hj (congrArg Prod.fst heq).symm

theorem arm_counted {c : Client} (h : Counted c) (i : ℕ) : Counted (c.arm i) := by
  rw [Client.arm]
  split
  · exact h
  · exact armDir_counted (armDir_counted h i .read) i .write

theorem armDir_armed (c : Client) (i : ℕ) (d : Dir) (h : (c.objects i).Wants d) :
    ((c.armDir i d).objects i).armed d = true := by
  rw [Client.armDir]
  split
  · next hor =>
    exact hor.resolve_left (not_not.mpr h)
  · simp only [Client.set_self,armed_setArmed]

theorem arm_armed {c : Client} (hs : c.stopping = false) (i : ℕ) (d : Dir)
    (h : (c.objects i).Wants d) : ((c.arm i).objects i).armed d = true := by
  rw [Client.arm,if_neg (by simp [hs])]
  have hread := armDir_arms c i .read
  cases d with
  | read => exact (armDir_arms _ i .write).armed i .read (armDir_armed c i .read h)
  | write => exact armDir_armed _ i .write ((hread.wants .write).mpr h)

/-- The map has a watch under its own descriptor; curl asks something only of a watch that is in
the map, and has its pointer; until the client shuts down it has no other. -/
structure Inv (c : Client) : Prop where
  counted : Counted c
  key : ∀ s i, c.watches s = some i → (c.objects i).fd = s ∧ i < c.made
  wanted : ∀ i, (c.objects i).action ≠ 0 → c.Alive i
  fresh : ∀ i, c.made ≤ i → ∀ d, (c.objects i).armed d = false
  socketp : ∀ s i, c.watches s = some i → c.socketp s = some i
  kept : c.stopping = false → ∀ s, c.socketp s = c.watches s
  dangling : c.stopping = false → c.dangling = false

theorem start_inv : Inv start where
  counted _ d := by cases d <;> rfl
  key _ _ h := by cases h
  wanted _ h := absurd rfl h
  fresh _ _ d := by cases d <;> rfl
  socketp _ _ h := by cases h
  kept _ _ := rfl
  dangling _ := rfl

theorem Inv.arms {c t : Client} (h : Inv c) {i : ℕ} (hi : i < c.made) (ha : Arms i c t)
    (ht : Counted t) : Inv t where
  counted := ht
  key s j hj := by
    rw [ha.watches] at hj
    rw [ha.fd,ha.made]
    exact h.key s j hj
  wanted j hj := by
    rw [ha.action] at hj
    exact ha.alive.mpr (h.wanted j hj)
  fresh j hj d := by
    rw [ha.made] at hj
    rw [ha.other j (by omega)]
    exact h.fresh j hj d
  socketp s j hj := by
    rw [ha.watches] at hj
    rw [ha.socketp]
    exact h.socketp s j hj
  kept hs s := by
    rw [ha.stopping] at hs
    rw [ha.socketp,ha.watches]
    exact h.kept hs s
  dangling hs := by
    rw [ha.stopping] at hs
    rw [ha.dangling]
    exact h.dangling hs

theorem Inv.arm {c : Client} (h : Inv c) {i : ℕ} (hi : i < c.made) : Inv (c.arm i) :=
  h.arms hi (arm_arms c i) (arm_counted h.counted i)

/-- The action of a watch that is in the map changes, or that of any watch to nothing. -/
theorem Inv.setAction {c : Client} (h : Inv c) {i what : ℕ} (ha : what ≠ 0 → c.Alive i) :
    Inv (c.set i { c.objects i with action := what }) := by
  have hobject (j : ℕ) : ((c.set i { c.objects i with action := what }).objects j).fd =
      (c.objects j).fd ∧ ∀ d, ((c.set i { c.objects i with action := what }).objects j).armed d =
        (c.objects j).armed d := by
    rcases eq_or_ne j i with rfl | hj
    · rw [Client.set_self]
      exact ⟨rfl,fun d => by cases d <;> rfl⟩
    · rw [Client.set_of_ne _ hj]
      exact ⟨rfl,fun _ => rfl⟩
  refine ⟨fun j d => ?_,fun s j hj => ?_,fun j hj => ?_,fun j hj d => ?_,
    h.socketp,h.kept,h.dangling⟩
  · rw [(hobject j).2]
    exact h.counted j d
  · rw [(hobject j).1]
    exact h.key s j hj
  · rw [Client.Alive,(hobject j).1]
    rcases eq_or_ne j i with rfl | hji
    · rw [Client.set_self] at hj
      exact ha hj
    · rw [Client.set_of_ne _ hji] at hj
      exact h.wanted j hj
  · rw [(hobject j).2]
    exact h.fresh j hj d

theorem Inv.update {c : Client} (h : Inv c) {i : ℕ} (ha : c.Alive i) (what : ℕ) :
    Inv (c.update i what) :=
  (h.setAction fun _ => ha).arm (h.key _ i ha).2

theorem Inv.make {c : Client} (h : Inv c) {s : ℕ} (hs : c.socketp s = none) : Inv (c.make s) := by
  have hnone : c.watches s = none := by
    cases hw : c.watches s with
    | none => rfl
    | some i =>
      rw [h.socketp s i hw] at hs
      cases hs
  have hold (j : ℕ) (hj : j ≠ c.made) : (c.make s).objects j = c.objects j := c.set_of_ne hj _
  have hnew : (c.make s).objects c.made = { fd := s } := c.set_self ..
  have hmap (t : ℕ) : (c.make s).watches t = if t = s then some c.made else c.watches t := by
    simp only [Client.make,Function.update_apply]
  have hcurl (t : ℕ) : (c.make s).socketp t = if t = s then some c.made else c.socketp t := by
    simp only [Client.make,Function.update_apply]
  have hmade : (c.make s).made = c.made+1 := rfl
  refine ⟨fun j d => ?_,fun t j hj => ?_,fun j hj => ?_,fun j hj d => ?_,fun t j hj => ?_,
    fun hf t => ?_,h.dangling⟩
  · have hcount : (c.make s).waits.count (j,d) = c.waits.count (j,d) := rfl
    rw [hcount,h.counted j d]
    rcases eq_or_ne j c.made with rfl | hne
    · rw [hnew,h.fresh _ (le_refl _)]
      cases d <;> rfl
    · rw [hold j hne]
  · rw [hmap] at hj
    split at hj
    · next ht =>
      obtain rfl := Option.some.inj hj
      rw [hnew,hmade]
      exact ⟨ht.symm,Nat.lt_succ_self _⟩
    · obtain ⟨hfd,hlt⟩ := h.key t j hj
      rw [hold j (by omega),hmade]
      exact ⟨hfd,by omega⟩
  · rcases eq_or_ne j c.made with rfl | hne
    · rw [hnew] at hj
      exact absurd rfl hj
    · rw [hold j hne] at hj
      have halive := h.wanted j hj
      rw [Client.Alive] at halive
      rw [Client.Alive,hold j hne,hmap,if_neg fun hfd => by rw [hfd,hnone] at halive; cases halive]
      exact halive
  · rw [hmade] at hj
    rw [hold j (by omega)]
    exact h.fresh j (by omega) d
  · rw [hmap] at hj
    rw [hcurl]
    split at hj
    · next ht =>
      rwa [if_pos ht]
    · next ht =>
      rw [if_neg ht]
      exact h.socketp t j hj
  · rw [hmap,hcurl]
    split
    · rfl
    · exact h.kept hf t

theorem Inv.remove {c : Client} (h : Inv c) {s old : ℕ} (hs : c.socketp s = some old) :
    Inv (c.socketCallback s pollRemove true) := by
  have heq : c.socketCallback s pollRemove true =
      { (c.follow old).dispose old with
        watches := Function.update c.watches s none
        socketp := Function.update c.socketp s none } := by
    rw [Client.socketCallback,if_pos rfl,hs]
  have haction := @Inv.setAction c h old 0 fun h0 => absurd rfl h0
  have hkeep (t j : ℕ) (hj : Function.update c.watches s none t = some j) :
      t ≠ s ∧ c.watches t = some j := by
    rw [Function.update_apply] at hj
    split at hj
    · cases hj
    · next ht => exact ⟨ht,hj⟩
  rw [heq]
  refine ⟨haction.counted,fun t j hj => haction.key t j (hkeep t j hj).2,fun j hj => ?_,
    haction.fresh,fun t j hj => ?_,fun hf t => ?_,fun hf => ?_⟩
  · have halive := haction.wanted j hj
    refine (Function.update_of_ne (fun hfd => ?_) _ _).trans halive
    rw [Client.Alive] at halive
    have hobject : ((c.set old { c.objects old with action := 0 }).objects j).fd = s := hfd
    rw [hobject] at halive
    have hold : j = old := Option.some.inj ((h.socketp s j halive).symm.trans hs)
    subst hold
    exact hj (congrArg CurlWatch.action (c.set_self ..))
  · obtain ⟨hne,hw⟩ := hkeep t j hj
    exact (Function.update_of_ne hne _ _).trans (h.socketp t j hw)
  · simp only [Function.update_apply]
    split
    · rfl
    · exact h.kept hf t
  · have hw : c.watches s = some old := (h.kept hf s).symm.trans hs
    have halive : c.Alive old := by rw [Client.Alive,(h.key s old hw).1,hw]
    have hdangling : c.dangling = false := h.dangling hf
    simp [Client.follow,Client.dispose,Client.set,Client.held,halive,hdangling]

theorem Inv.socketCallback {c : Client} (h : Inv c) (s what : ℕ) (assigned : Bool) :
    Inv (c.socketCallback s what assigned) := by
  by_cases hremove : what = pollRemove
  · subst hremove
    cases hs : c.socketp s with
    | none =>
      rw [Client.socketCallback,if_pos rfl,hs]
      exact h
    | some old =>
      have hremove := h.remove hs
      rw [Client.socketCallback,if_pos rfl] at hremove ⊢
      exact hremove
  · rw [Client.socketCallback,if_neg hremove]
    cases hs : c.socketp s with
    | none =>
      simp only
      split
      · have halive : (c.make s).Alive c.made := by
          simp [Client.Alive,Client.make]
        exact (h.make hs).update halive what
      · exact h
    | some old =>
      cases hw : c.watches s with
      | none => exact h
      | some i =>
        have halive : c.Alive i := by rw [Client.Alive,(h.key s i hw).1,hw]
        exact h.update halive what

theorem Inv.taken {c : Client} (h : Inv c) {i : ℕ} {d : Dir} (hmem : (i,d) ∈ c.waits) :
    Inv (c.taken i d) := by
  have hpos := List.count_pos_iff.mpr hmem
  have hone : c.waits.count (i,d) = 1 := by
    have hcount := h.counted i d
    cases hflag : (c.objects i).armed d <;> rw [hflag] at hcount
    · simp only [Bool.toNat_false] at hcount
      omega
    · exact hcount
  have hobject (j : ℕ) : ((c.taken i d).objects j).fd = (c.objects j).fd ∧
      ((c.taken i d).objects j).action = (c.objects j).action := by
    rcases eq_or_ne j i with rfl | hj
    · rw [Client.taken_self]
      exact ⟨setArmed_fd ..,setArmed_action ..⟩
    · rw [Client.taken_of_ne _ hj]
      exact ⟨rfl,rfl⟩
  have hwaits : (c.taken i d).waits = c.waits.erase (i,d) := rfl
  refine ⟨fun j e => ?_,fun s j hj => ?_,fun j hj => ?_,fun j hj e => ?_,h.socketp,h.kept,
    h.dangling⟩
  · rw [hwaits]
    rcases eq_or_ne j i with rfl | hj
    · rw [Client.taken_self]
      rcases eq_or_ne e d with rfl | he
      · rw [List.count_erase_self,hone,armed_setArmed]
        rfl
      · rw [armed_setArmed_of_ne _ he,List.count_erase_of_ne fun heq =>
          he (congrArg Prod.snd heq),h.counted j e]
    · rw [Client.taken_of_ne _ hj,List.count_erase_of_ne fun heq => hj (congrArg Prod.fst heq),
        h.counted j e]
  · rw [(hobject j).1]
    exact h.key s j hj
  · rw [(hobject j).2] at hj
    rw [Client.Alive,(hobject j).1]
    exact h.wanted j hj
  · rcases eq_or_ne j i with rfl | hne
    · rw [Client.taken_self]
      rcases eq_or_ne e d with rfl | he
      · exact armed_setArmed ..
      · rw [armed_setArmed_of_ne _ he]
        exact h.fresh j hj e
    · rw [Client.taken_of_ne _ hne]
      exact h.fresh j hj e

theorem Inv.shutdown {c : Client} (h : Inv c) : Inv c.shutdown := by
  have hobject (j : ℕ) : (c.shutdown.objects j).action = 0 ∧
      ∀ d, (c.shutdown.objects j).armed d = (c.objects j).armed d := by
    simp only [Client.shutdown]
    split
    · exact ⟨rfl,fun d => by cases d <;> rfl⟩
    · next hdead =>
      exact ⟨not_not.mp fun hj => hdead (h.wanted j hj),fun _ => rfl⟩
  exact {
    counted := fun j d => (h.counted j d).trans (congrArg Bool.toNat ((hobject j).2 d).symm)
    key := fun _ _ hj => by cases hj
    wanted := fun j hj => absurd (hobject j).1 hj
    fresh := fun j hj d => ((hobject j).2 d).trans (h.fresh j hj d)
    socketp := fun _ _ hj => by cases hj
    kept := fun hf => by cases hf
    dangling := fun hf => by cases hf }

theorem Inv.rearm {c : Client} (h : Inv c) (i : ℕ) : Inv (c.rearm i) := by
  rw [Client.rearm]
  split
  · next halive => exact h.arm (h.key _ i halive).2
  · exact h

theorem Inv.idle {c : Client} (h : Inv c) (running : Option (ℕ × Dir)) (timer : Bool)
    (stale : ℕ) : Inv { c with running := running, timer := timer, stale := stale } :=
  ⟨h.counted,h.key,h.wanted,h.fresh,h.socketp,h.kept,h.dangling⟩

theorem step_inv {c t : Client} {a : Action} (h : Inv c) (hstep : step c a = some t) : Inv t := by
  rcases step_cases hstep with ⟨s,what,assigned,-,rfl⟩ | ⟨timer,stale,rfl⟩ |
    ⟨i,d,ec,-,-,hmem,hcase⟩ | ⟨i,d,-,rfl⟩ | rfl
  · exact h.socketCallback s what assigned
  · exact h.idle c.running timer stale
  · have htaken := h.taken hmem
    rcases hcase with ⟨-,rfl⟩ | rfl | rfl
    · exact htaken
    · exact htaken.idle (some (i,d)) _ _
    · exact htaken.rearm i
  · exact (h.idle none c.timer c.stale).rearm i
  · exact h.shutdown

theorem run_inv {c : Client} {as : List Action} (h : Trace.run step start as = some c) : Inv c :=
  Trace.run_keeps (fun _ _ _ => step_inv) start_inv h

end CurlWatches
end AsioQuickjs
