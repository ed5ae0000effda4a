import Wetnork.Host.Identity

/-! `host::TunAdminContext`: netlink sockets in movable objects, and the objects that `libnl` hands
out for links. -/
namespace Wetnork.Host.Netlink

open Runs (Along)
open Descriptors (Owned Table)

/-- `std::runtime_error`, with a text of its own or that of `nl_geterror`. -/
inductive Error where
  | what (text : String)
  | geterror (err : ℤ)
deriving DecidableEq, Repr

/-- Contexts by address, and what `libnl` has handed out: sockets with whether they are connected,
and links. `failures` has the sockets of contexts that could not be constructed. -/
structure Admin where
  contexts : ℕ → Option (Option ℕ)
  contextCount : ℕ
  failures : ℕ → Option ℕ
  failureCount : ℕ
  sockets : Table Bool
  links : Table Unit
  requests : List LinkChange
  faults : ℕ

/-- Results of `libnl` for one change of a link: of `rtnl_link_get_kernel`, of `rtnl_link_alloc`,
and of `rtnl_link_change`. -/
structure Results where
  get : Except ℤ ℕ
  alloc : Option ℕ
  change : ℤ

/-- `rtnl_link_set_mtu` takes an `unsigned int`. -/
def sent (change : LinkChange) : LinkChange :=
  match change.change with
  | .mtu size => ⟨change.ifIndex, .mtu (size % 2 ^ 32)⟩
  | _ => change

namespace Admin

def new : Admin := ⟨fun _ => none, 0, fun _ => none, 0, .empty, .empty, [], 0⟩

/-- `TunAdminContext()`; a constructor that throws runs no destructor. -/
def create (s : Admin) (socket : Option ℕ) (connect : ℤ) : Admin × Except Error Unit :=
  match socket with
  | none => (s, .error (.what "Could not open netlink socket"))
  | some n =>
    if connect < 0 then
      ({ s with
        sockets := s.sockets.opened n false
        failures := Function.update s.failures s.failureCount (some n)
        failureCount := s.failureCount + 1 }, .error (.geterror connect))
    else
      ({ s with
        sockets := s.sockets.opened n true
        contexts := Function.update s.contexts s.contextCount (some (some n))
        contextCount := s.contextCount + 1 }, .ok ())

/-- `TunAdminContext::close` -/
def close (s : Admin) : Option ℕ → Admin
  | none => s
  | some n => { s with sockets := s.sockets.close n }

def moveConstruct (s : Admin) (c : ℕ) : Admin :=
  match s.contexts c with
  | none => s
  | some nl =>
    { s with
      contexts :=
        Function.update (Function.update s.contexts c (some none)) s.contextCount (some nl)
      contextCount := s.contextCount + 1 }

def moveAssign (s : Admin) (lhs rhs : ℕ) : Admin :=
  match s.contexts lhs, s.contexts rhs with
  | some old, some nl =>
    let s := s.close old
    { s with
      contexts := Function.update (Function.update s.contexts lhs (some nl)) rhs (some none) }
  | _, _ => s

def destroy (s : Admin) (c : ℕ) : Admin :=
  match s.contexts c with
  | none => s
  | some nl => { s.close nl with contexts := Function.update s.contexts c none }

/-- A call of `libnl` with a socket, which must be one that is connected. -/
def use (s : Admin) (nl : Option ℕ) : Admin :=
  match nl.bind s.sockets.file with
  | some true => s
  | _ => { s with faults := s.faults + 1 }

def put (s : Admin) (link : ℕ) : Admin := { s with links := s.links.close link }

/-- `setLinkState` and `setLinkMtu`; the destructor of each `RtnlLink` puts back what it holds. -/
def setLink (s : Admin) (c : ℕ) (change : LinkChange) (os : Results) : Admin × Except Error Unit :=
  match s.contexts c with
  | none => (s, .ok ())
  | some nl =>
    let s := s.use nl
    match os.get with
    | .error _ => (s, .error (.what "Could not get rtnl_link"))
    | .ok link =>
      let s := { s with links := s.links.opened link () }
      match os.alloc with
      | none => (s.put link, .error (.what "Could not allocate rtnl_link"))
      | some object =>
        let s := { s with links := s.links.opened object () }
        let s := { s.use nl with requests := s.requests ++ [sent change] }
        if os.change < 0 then ((s.put object).put link, .error (.geterror os.change))
        else ((s.put object).put link, .ok ())

end Admin

inductive Action where
  | create (socket : Option ℕ) (connect : ℤ)
  | moveConstruct (c : ℕ)
  | moveAssign (lhs rhs : ℕ)
  | destroy (c : ℕ)
  | setLinkState (c : ℕ) (tun : TunDevice) (up : Bool) (os : Results)
  | setLinkMtu (c : ℕ) (tun : TunDevice) (mtu : ℕ) (os : Results)

def Admin.step (s : Admin) : Action → Admin
  | .create socket connect => (s.create socket connect).1
  | .moveConstruct c => s.moveConstruct c
  | .moveAssign lhs rhs => s.moveAssign lhs rhs
  | .destroy c => s.destroy c
  | .setLinkState c tun up os => (s.setLink c (Host.setLinkState tun up) os).1
  | .setLinkMtu c tun mtu os => (s.setLink c (Host.setLinkMtu tun mtu) os).1

/-- `libnl` hands out what is not in use. -/
def Results.Fresh (links : Table Unit) (os : Results) : Prop :=
  ∀ link, os.get = .ok link → links.file link = none ∧
    ∀ object, os.alloc = some object → object ≠ link ∧ links.file object = none

def Possible (s : Admin) : Action → Prop
  | .create socket _ => ∀ n, socket = some n → s.sockets.file n = none
  | .setLinkState _ _ _ os => os.Fresh s.links
  | .setLinkMtu _ _ _ os => os.Fresh s.links
  | _ => True

/-- A construction that throws after `nl_socket_alloc`. -/
def Action.fails : Action → Bool
  | .create (some _) connect => connect < 0
  | _ => false

/-- The context of a change still has its socket. -/
def Settled (s : Admin) : Action → Prop
  | .setLinkState c _ _ _ => s.contexts c ≠ some none
  | .setLinkMtu c _ _ _ => s.contexts c ≠ some none
  | _ => True

/-- Contexts and failed constructions, by what they have of `libnl`. -/
def holders (contexts : ℕ → Option (Option ℕ)) (failures : ℕ → Option ℕ) : ℕ ⊕ ℕ → Option ℕ
  | .inl c => (contexts c).join
  | .inr i => failures i

structure Resources (s : Admin) : Prop where
  owned : Owned s.sockets (holders s.contexts s.failures)
  connected : ∀ c n, s.contexts c = some (some n) → s.sockets.file n = some true
  unused : ∀ c, s.contextCount ≤ c → s.contexts c = none
  unfailed : ∀ i, s.failureCount ≤ i → s.failures i = none
  links : s.links = .empty

variable {s : Admin} {a : Action} {c n lhs rhs : ℕ} {nl old : Option ℕ} {change : LinkChange}
  {os : Results} {contexts : ℕ → Option (Option ℕ)} {failures : ℕ → Option ℕ}

@[simp] theorem holders_contexts (c : ℕ) (x : Option (Option ℕ)) :
    holders (Function.update contexts c x) failures =
      Function.update (holders contexts failures) (.inl c) x.join := by
  funext k
  cases k with
  | inl d =>
    by_cases hd : d = c
    · subst hd
      simp [holders]
    · simp [holders, hd]
  | inr i => simp [holders]

@[simp] theorem holders_failures (i : ℕ) (x : Option ℕ) :
    holders contexts (Function.update failures i x) =
      Function.update (holders contexts failures) (.inr i) x := by
  funext k
  cases k with
  | inl d => simp [holders]
  | inr j =>
    by_cases hj : j = i
    · subst hj
      simp [holders]
    · simp [holders, hj]

theorem resources_new : Resources .new where
  owned := by
    have : holders Admin.new.contexts Admin.new.failures = fun _ => none := by
      funext k
      cases k <;> rfl
    rw [this]
    exact Descriptors.owned_empty
  connected := nofun
  unused := fun _ _ => rfl
  unfailed := fun _ _ => rfl
  links := rfl

/-- What is not touched stays connected. -/
theorem connected_opened {t : Table Bool} {m : ℕ} {b : Bool} (hn : t.file n = none)
    (hm : t.file m = some true) : (t.opened n b).file m = some true := by
  have hne : m ≠ n := by
    rintro rfl
    rw [hn] at hm
    cases hm
  simp [Table.opened, hne, hm]

theorem connected_close {t : Table Bool} {m : ℕ} (hne : m ≠ n) (hm : t.file m = some true) :
    (t.close n).file m = some true := by
  unfold Table.close
  split
  · simp [hne, hm]
  · exact hm

theorem resources_create {socket : Option ℕ} (connect : ℤ) (hs : Resources s)
    (hn : ∀ n, socket = some n → s.sockets.file n = none) :
    Resources (s.create socket connect).1 := by
  cases socket with
  | none => exact hs
  | some n =>
    have hn := hn n rfl
    simp only [Admin.create]
    split
    · refine ⟨?_, fun c m hc => connected_opened hn (hs.connected c m hc), hs.unused,
        fun i hi => Store.unused_placed hs.unfailed _ hi, hs.links⟩
      rw [holders_failures]
      have hnew : holders s.contexts s.failures (.inr s.failureCount) = none :=
        hs.unfailed _ le_rfl
      exact hs.owned.opened hn hnew false
    · refine ⟨?_, fun c m hc => ?_, fun c hc => Store.unused_placed hs.unused _ hc,
        hs.unfailed, hs.links⟩
      · rw [holders_contexts]
        refine hs.owned.opened hn ?_ true
        simp [holders, hs.unused _ le_rfl]
      · by_cases hcount : c = s.contextCount
        · subst hcount
          obtain rfl : n = m := by simpa using hc
          simp [Table.opened]
        · dsimp only at hc
          rw [Function.update_of_ne hcount] at hc
          exact connected_opened hn (hs.connected c m hc)

theorem resources_moveConstruct (hs : Resources s) : Resources (s.moveConstruct c) := by
  cases hc : s.contexts c with
  | none => simpa only [Admin.moveConstruct, hc] using hs
  | some nl =>
    have hlt := Store.lt_of_unused hs.unused hc
    simp only [Admin.moveConstruct, hc]
    refine ⟨?_, fun d m hd => ?_, fun d hd => ?_, hs.unfailed, hs.links⟩
    · have hnew : holders s.contexts s.failures (.inl s.contextCount) = none := by
        simp [holders, hs.unused _ le_rfl]
      have hold : holders s.contexts s.failures (.inl c) = nl := by simp [holders, hc]
      have := hs.owned.handedOver (i := .inl c) hnew
      rw [hold] at this
      simpa using this
    · by_cases hcount : d = s.contextCount
      · subst hcount
        obtain rfl : nl = some m := by simpa using hd
        exact hs.connected c m hc
      · dsimp only at hd
        rw [Function.update_of_ne hcount] at hd
        by_cases hdc : d = c
        · simp [hdc] at hd
        · rw [Function.update_of_ne hdc] at hd
          exact hs.connected d m hd
    · exact Store.unused_placed (fun _ => Store.unused_written hs.unused hlt _) _ hd

theorem sockets_close (s : Admin) (nl : Option ℕ) :
    s.close nl = { s with sockets := nl.elim s.sockets s.sockets.close } := by
  cases nl <;> rfl

/-- A context that gives up its socket. -/
theorem owned_release (hs : Resources s) (hc : s.contexts c = some old) :
    Owned (old.elim s.sockets s.sockets.close)
      (Function.update (holders s.contexts s.failures) (.inl c) none) := by
  have hold : holders s.contexts s.failures (.inl c) = old := by simp [holders, hc]
  cases old with
  | none =>
    have hself := Function.update_eq_self (Sum.inl c) (holders s.contexts s.failures)
    rw [hold] at hself
    rw [hself]
    exact hs.owned
  | some n => exact hs.owned.closed hold

theorem connected_release (hs : Resources s) (hc : s.contexts c = some old) {d m : ℕ}
    (hne : d ≠ c) (hd : s.contexts d = some (some m)) :
    (old.elim s.sockets s.sockets.close).file m = some true := by
  cases old with
  | none => exact hs.connected d m hd
  | some n =>
    refine connected_close ?_ (hs.connected d m hd)
    rintro rfl
    have hdc := hs.owned.unique (.inl d) (.inl c) m (by simp [holders, hd]) (by simp [holders, hc])
    exact hne (Sum.inl.inj hdc)

theorem resources_destroy (hs : Resources s) : Resources (s.destroy c) := by
  cases hc : s.contexts c with
  | none => simpa only [Admin.destroy, hc] using hs
  | some old =>
    simp only [Admin.destroy, hc, sockets_close]
    refine ⟨?_, fun d m hd => ?_, fun d hd => ?_, hs.unfailed, hs.links⟩
    · rw [holders_contexts]
      exact owned_release hs hc
    · by_cases hdc : d = c
      · simp [hdc] at hd
      · dsimp only at hd
        rw [Function.update_of_ne hdc] at hd
        exact connected_release hs hc hdc hd
    · exact Store.unused_written hs.unused (Store.lt_of_unused hs.unused hc) _ hd

theorem resources_moveAssign (hs : Resources s) : Resources (s.moveAssign lhs rhs) := by
  cases hl : s.contexts lhs with
  | none => simpa only [Admin.moveAssign, hl] using hs
  | some old =>
    cases hr : s.contexts rhs with
    | none => simpa only [Admin.moveAssign, hl, hr] using hs
    | some nl =>
      simp only [Admin.moveAssign, hl, hr, sockets_close]
      have howned := owned_release hs hl
      refine ⟨?_, fun d m hd => ?_, fun d hd => ?_, hs.unfailed, hs.links⟩
      · simp only [holders_contexts, Option.join_some]
        by_cases heq : lhs = rhs
        · subst heq
          simpa using howned
        · -- The one on the left has nothing left when it takes over.
          have hne : (Sum.inl rhs : ℕ ⊕ ℕ) ≠ Sum.inl lhs := fun he => heq (Sum.inl.inj he).symm
          have := howned.handedOver (i := .inl rhs) (Function.update_self ..)
          rw [Function.update_of_ne hne] at this
          have hnl : holders s.contexts s.failures (.inl rhs) = nl := by simp [holders, hr]
          rw [hnl, Function.update_comm hne.symm, Function.update_idem,
            Function.update_comm hne] at this
          simpa using this
      · by_cases hdr : d = rhs
        · simp [hdr] at hd
        · dsimp only at hd
          rw [Function.update_of_ne hdr] at hd
          by_cases hdl : d = lhs
          · subst hdl
            obtain rfl : nl = some m := by simpa using hd
            exact connected_release hs hl (Ne.symm hdr) hr
          · rw [Function.update_of_ne hdl] at hd
            exact connected_release hs hl hdl hd
      · have hll := Store.lt_of_unused hs.unused hl
        have hlr := Store.lt_of_unused hs.unused hr
        exact Store.unused_written (fun _ => Store.unused_written hs.unused hll _) hlr _ hd

@[simp] theorem links_use (s : Admin) (nl : Option ℕ) : (s.use nl).links = s.links := by
  unfold Admin.use
  split <;> rfl

/-- Whatever goes wrong, all links are put back, each once. -/
theorem setLink_links (hf : os.Fresh s.links) : (s.setLink c change os).1.links = s.links := by
  cases hc : s.contexts c with
  | none => simp only [Admin.setLink, hc]
  | some nl =>
    cases hg : os.get with
    | error err => simp only [Admin.setLink, hc, hg, links_use]
    | ok link =>
      obtain ⟨hlink, hobject⟩ := hf link hg
      have hput := Table.close_opened () hlink
      cases ha : os.alloc with
      | none => simp only [Admin.setLink, hc, hg, ha, Admin.put, links_use, hput]
      | some object =>
        obtain ⟨hne, hfree⟩ := hobject object ha
        have hfree' : (s.links.opened link ()).file object = none := by
          simp [Table.opened, hne, hfree]
        have hput' := Table.close_opened () hfree'
        simp only [Admin.setLink, hc, hg, ha]
        split <;> simp only [Admin.put, links_use, hput', hput]

/-- All that `setLink` leaves as it was. -/
structure Frame (s t : Admin) : Prop where
  contexts : t.contexts = s.contexts
  contextCount : t.contextCount = s.contextCount
  failures : t.failures = s.failures
  failureCount : t.failureCount = s.failureCount
  sockets : t.sockets = s.sockets

theorem frame_use (s : Admin) (nl : Option ℕ) : Frame s (s.use nl) := by
  unfold Admin.use
  split <;> exact ⟨rfl, rfl, rfl, rfl, rfl⟩

theorem frame_setLink (s : Admin) (c : ℕ) (change : LinkChange) (os : Results) :
    Frame s (s.setLink c change os).1 := by
  unfold Admin.setLink
  cases s.contexts c with
  | none => exact ⟨rfl, rfl, rfl, rfl, rfl⟩
  | some nl =>
    have h := frame_use s nl
    cases os.get with
    | error err => exact h
    | ok link =>
      cases os.alloc with
      | none => exact ⟨h.contexts, h.contextCount, h.failures, h.failureCount, h.sockets⟩
      | some object =>
        have h' := frame_use { s.use nl with
          links := ((s.use nl).links.opened link ()).opened object () } nl
        dsimp only
        split
        · exact ⟨h'.contexts.trans h.contexts, h'.contextCount.trans h.contextCount,
            h'.failures.trans h.failures, h'.failureCount.trans h.failureCount,
            h'.sockets.trans h.sockets⟩
        · exact ⟨h'.contexts.trans h.contexts, h'.contextCount.trans h.contextCount,
            h'.failures.trans h.failures, h'.failureCount.trans h.failureCount,
            h'.sockets.trans h.sockets⟩

theorem resources_setLink (hs : Resources s) (hf : os.Fresh s.links) :
    Resources (s.setLink c change os).1 := by
  obtain ⟨hcontexts, hcount, hfailures, hfailed, hsockets⟩ := frame_setLink s c change os
  refine ⟨?_, ?_, ?_, ?_, ?_⟩
  · rw [hsockets, hcontexts, hfailures]
    exact hs.owned
  · rw [hsockets, hcontexts]
    exact hs.connected
  · rw [hcount, hcontexts]
    exact hs.unused
  · rw [hfailed, hfailures]
    exact hs.unfailed
  · rw [setLink_links hf, hs.links]

theorem resources_step (hs : Resources s) (hp : Possible s a) : Resources (s.step a) := by
  cases a with
  | create socket connect => exact resources_create connect hs hp
  | moveConstruct c => exact resources_moveConstruct hs
  | moveAssign lhs rhs => exact resources_moveAssign hs
  | destroy c => exact resources_destroy hs
  | setLinkState c tun up os => exact resources_setLink hs hp
  | setLinkMtu c tun mtu os => exact resources_setLink hs hp

theorem use_connected (h : s.sockets.file n = some true) : s.use (some n) = s := by
  simp [Admin.use, h]

/-- A context is served unless it has been moved from. -/
theorem setLink_faults (hs : Resources s) :
    (s.setLink c change os).1.faults = s.faults ↔ s.contexts c ≠ some none := by
  cases hc : s.contexts c with
  | none => simp [Admin.setLink, hc]
  | some nl =>
    cases nl with
    | none =>
      refine iff_of_false ?_ (fun h => h rfl)
      have hle : s.faults + 1 ≤ (s.setLink c change os).1.faults := by
        unfold Admin.setLink
        rw [hc]
        dsimp only
        split
        · exact le_rfl
        · split
          · exact le_rfl
          · split <;> exact Nat.le_succ _
      omega
    | some n =>
      refine iff_of_true ?_ (by simp)
      have hn := hs.connected c n hc
      have huse : ∀ links, Admin.use { s with links := links } (some n) =
        { s with links := links } := fun _ => use_connected hn
      unfold Admin.setLink
      rw [hc]
      dsimp only
      rw [use_connected hn]
      split
      · rfl
      · split
        · rfl
        · simp only [huse]
          split <;> rfl

theorem served_iff (hs : Resources s) : (s.step a).faults = s.faults ↔ Settled s a := by
  cases a with
  | create socket connect =>
    refine iff_of_true ?_ trivial
    cases socket with
    | none => rfl
    | some n =>
      simp only [Admin.step, Admin.create]
      split <;> rfl
  | moveConstruct c =>
    refine iff_of_true ?_ trivial
    simp only [Admin.step, Admin.moveConstruct]
    split <;> rfl
  | moveAssign lhs rhs =>
    refine iff_of_true ?_ trivial
    simp only [Admin.step, Admin.moveAssign, sockets_close]
    split <;> rfl
  | destroy c =>
    refine iff_of_true ?_ trivial
    simp only [Admin.step, Admin.destroy, sockets_close]
    split <;> rfl
  | setLinkState c tun up os => exact setLink_faults hs
  | setLinkMtu c tun mtu os => exact setLink_faults hs

theorem failureCount_step (s : Admin) (a : Action) :
    (s.step a).failureCount = s.failureCount + a.fails.toNat := by
  cases a with
  | create socket connect =>
    cases socket with
    | none => rfl
    | some n =>
      simp only [Admin.step, Admin.create, Action.fails]
      split <;> simp [*]
  | moveConstruct c =>
    simp only [Admin.step, Admin.moveConstruct]
    split <;> rfl
  | moveAssign lhs rhs =>
    simp only [Admin.step, Admin.moveAssign, sockets_close]
    split <;> rfl
  | destroy c =>
    simp only [Admin.step, Admin.destroy, sockets_close]
    split <;> rfl
  | setLinkState c tun up os => exact (frame_setLink s c _ os).failureCount
  | setLinkMtu c tun mtu os => exact (frame_setLink s c _ os).failureCount

theorem failureCount_run (s : Admin) (actions : List Action) :
    (Runs.run Admin.step s actions).failureCount =
      s.failureCount + actions.countP Action.fails := by
  induction actions generalizing s with
  | nil => rfl
  | cons a actions ih =>
    rw [Runs.run_cons, ih, failureCount_step, List.countP_cons]
    cases a.fails <;> simp
    omega

/-- Over every run: each socket is freed by the one context that has it, and used only while it is
connected; only those of constructors that threw are left, and no link is. -/
theorem netlink_resources (actions : List Action) (hp : Along Admin.step Possible .new actions) :
    let s := Runs.run Admin.step .new actions
    Resources s ∧ s.failureCount = actions.countP Action.fails ∧
      (Along Admin.step (fun s a => (s.step a).faults = s.faults) .new actions ↔
        Along Admin.step Settled .new actions) := by
  refine ⟨?_, ?_, ?_⟩
  · exact Runs.invariant_along (fun s a => resources_step) resources_new hp
  · rw [failureCount_run]
    exact Nat.zero_add _
  · exact Runs.along_iff (fun s a hs _ => served_iff hs) (fun s a hs hp _ => resources_step hs hp)
      resources_new hp

/-- A link is changed through a context that another one was constructed from. -/
def afterMove : List Action :=
  [.create (some 3) 0, .moveConstruct 0,
    .setLinkState 0 ⟨4, 7, "tun0"⟩ true ⟨.ok 5, some 6, 0⟩]

/-- The context has no socket any more, and `libnl` gets a null pointer. -/
theorem netlink_resources_moved :
    ¬ Along Admin.step (fun s a => (s.step a).faults = s.faults) .new afterMove := by
  have hp : Along Admin.step Possible .new afterMove := by
    refine ⟨fun _ _ => rfl, trivial, fun link hlink => ⟨rfl, fun object hobject => ⟨?_, rfl⟩⟩,
      trivial⟩
    obtain rfl := Except.ok.inj hlink
    obtain rfl := Option.some.inj hobject
    decide
  exact fun h => ((netlink_resources afterMove hp).2.2.mp h).2.2.1 rfl

end Wetnork.Host.Netlink
