import Blackmount.Net.Links

/-!
# Net — the names of sockets

`unix_sock_bind` looks for the path it is given and stores its first 107 characters.

* `Dropped`: what every call but bind and listen does to the names; it may take sockets off them.
* `unixSockBind_iff`, `unixSockListen_iff`: when the names are sound after these.
* `names_sound_iff`: the names are sound in every state of a run exactly when no step of it binds or listens under a path that
  was cut off.
-/

namespace Blackmount.Net
open Blackmount.Lib Blackmount.Proc Blackmount.Console

/-! ### Names -/

/-- Of a socket, what `find_bound` and `find_listener` look at. -/
structure SockName where
  inUse : Bool
  state : UnixSockState
  path : List UInt8

def UnixSocket.name (x : UnixSocket) : SockName := ⟨x.inUse, x.state, x.path⟩

abbrev Names := SockSlot → SockName

def names (s : NetKernel) : Names := fun i => (s.sockTable i).name

/-- In state `US_BOUND` or `US_LISTENING`. -/
def SockName.Named (x : SockName) : Prop := x.inUse = true ∧ (x.state = .bound ∨ x.state = .listening)

def SockName.Listening (x : SockName) : Prop := x.inUse = true ∧ x.state = .listening

theorem SockName.Listening.named {x : SockName} (h : x.Listening) : x.Named := ⟨h.1, .inr h.2⟩

/-- What is stored of a path. -/
def stored (path : List UInt8) : List UInt8 := path.take (unixPathMax - 1)

theorem stored_eq {path : List UInt8} (h : path.length < unixPathMax) : stored path = path :=
  List.take_of_length_le (by simp only [unixPathMax] at h ⊢; omega)

theorem stored_length (path : List UInt8) : (stored path).length < unixPathMax :=
  Nat.lt_of_le_of_lt (List.length_take_le _ _) (by decide)

/-! ### The two searches -/

section Searches

variable {s : NetKernel} {path : List UInt8} {i : SockSlot}

theorem findBound_named (h : findBound s path = some i) : (names s i).Named ∧ (names s i).path = path := by
  have hi := List.find?_some h
  simp only [Bool.and_eq_true, Bool.or_eq_true, beq_iff_eq] at hi
  exact ⟨hi.1, hi.2⟩

theorem findBound_none : findBound s path = none ↔ ∀ i, (names s i).Named → (names s i).path ≠ path := by
  rw [findBound, List.find?_eq_none]
  simp only [Bool.and_eq_true, Bool.or_eq_true, beq_iff_eq, not_and]
  exact ⟨fun h i hi => h i (List.mem_finRange i) hi, fun h i _ hi => h i hi⟩

theorem findListener_some (h : findListener s path = some i) : (names s i).Listening ∧ (names s i).path = path := by
  have hi := List.find?_some h
  simp only [Bool.and_eq_true, beq_iff_eq] at hi
  exact ⟨hi.1, hi.2⟩

theorem findListener_isSome (hi : (names s i).Listening) (hpath : (names s i).path = path) :
    ∃ j, findListener s path = some j := by
  cases hfind : findListener s path with
  | none =>
      refine absurd ?_ (List.find?_eq_none.mp hfind i (List.mem_finRange i))
      simp only [Bool.and_eq_true, beq_iff_eq]
      exact ⟨hi, hpath⟩
  | some j => exact ⟨j, rfl⟩

end Searches

/-! ### What the calls do to the names -/

section Calls

theorem names_modifySock (s : NetKernel) (i : SockSlot) (f : UnixSocket → UnixSocket) :
    names (s.modifySock i f) = Function.update (names s) i (f (s.sockTable i)).name := by
  funext j
  by_cases hj : j = i
  · subst hj
    simp only [names, NetKernel.modifySock, Function.update_self]
  · simp only [names, NetKernel.modifySock, Function.update_of_ne hj]

theorem names_modifySock_same {s : NetKernel} {i : SockSlot} {f : UnixSocket → UnixSocket} (h : ∀ x, (f x).name = x.name) :
    names (s.modifySock i f) = names s := by
  rw [names_modifySock, h]
  exact Function.update_eq_self i (names s)

theorem names_wakeReader (s : NetKernel) (i : SockSlot) : names (wakeReader s i) = names s := by
  funext j
  simp only [names, wakeReader_sock, UnixSocket.name]

theorem names_wakeClient (s : NetKernel) (pid : Int32) : names (wakeClient s pid) = names s := by
  simp only [wakeClient]
  split <;> rfl

theorem names_blockReader (s : NetKernel) (i : SockSlot) (point : KernelPoint) (frame : Registers) :
    names (blockReader s i point frame) = names s := by
  have hm : names (s.modifySock i fun x => { x with blockedReaderPid := procGetCurrentPid s.proc }) = names s :=
    names_modifySock_same fun _ => rfl
  exact hm

/-- Whatever is bound or listening was so before, under the same path. -/
def Dropped (N N' : Names) : Prop := ∀ i, (N' i).Named → N' i = N i

theorem Dropped.refl (N : Names) : Dropped N N := fun _ _ => rfl

theorem Dropped.of_eq {N N' : Names} (h : N' = N) : Dropped N N' := h ▸ .refl N

theorem Dropped.trans {N N' N'' : Names} (h : Dropped N N') (h' : Dropped N' N'') : Dropped N N'' := fun i hi => by
  have hi' := h' i hi
  rw [hi', h i (hi' ▸ hi)]

/-- A socket in another state takes itself off the names. -/
theorem dropped_modifySock {s : NetKernel} {i : SockSlot} {f : UnixSocket → UnixSocket} (state : UnixSockState)
    (hstate : ∀ x, (f x).state = state) (h : state ≠ .bound ∧ state ≠ .listening) :
    Dropped (names s) (names (s.modifySock i f)) := by
  intro j hj
  rw [names_modifySock] at hj ⊢
  by_cases hji : j = i
  · subst hji
    rw [Function.update_self] at hj
    have hnamed : state = .bound ∨ state = .listening := hstate (s.sockTable j) ▸ hj.2
    exact absurd hnamed (not_or.mpr h)
  · exact Function.update_of_ne hji _ _

theorem dropped_create (s : NetKernel) (type : SockType) : Dropped (names s) (names (unixSockCreate s type).1) := by
  simp only [unixSockCreate]
  cases freeSock s with
  | none => exact .refl _
  | some i =>
      dsimp only
      exact dropped_modifySock .created (fun _ => rfl) (by decide)

theorem dropped_accept (s : NetKernel) (id : Int32) (frame : Registers) :
    Dropped (names s) (names (unixSockAccept s id frame).1) := by
  simp only [unixSockAccept]
  cases unixSockGet s id with
  | none => exact .refl _
  | some i =>
      simp only
      split_ifs
      · exact .refl _
      · exact .of_eq (names_blockReader _ _ _ _)
      · simp only [acceptEntry]
        generalize hs₁ : s.modifySock i _ = s₁
        have hpop : Dropped (names s) (names s₁) := hs₁ ▸ .of_eq (names_modifySock_same fun _ => rfl)
        cases freeSock s₁ with
        | none => exact hpop.trans (.of_eq (names_wakeClient _ _))
        | some n =>
            simp only
            generalize hs₂ : s₁.modifySock n _ = s₂
            have hnew : Dropped (names s) (names s₂) := by
              refine hpop.trans ?_
              rw [← hs₂]
              exact dropped_modifySock .connected (fun _ => rfl) (by decide)
            refine .trans ?_ (.of_eq (names_wakeClient _ _))
            cases unixSockGet s₂ ((s.sockTable i).backlog (s.sockTable i).backlogHead).clientSockId with
            | none => exact hnew
            | some c => exact hnew.trans (dropped_modifySock .connected (fun _ => rfl) (by decide))

theorem dropped_connect (s : NetKernel) (id : Int32) (path : List UInt8) (frame : Registers) :
    Dropped (names s) (names (unixSockConnect s id path frame).1) := by
  simp only [unixSockConnect]
  cases unixSockGet s id with
  | none => exact .refl _
  | some i =>
      simp only
      split_ifs
      · exact .refl _
      · exact .refl _
      · cases findListener s path with
        | none => exact .refl _
        | some l =>
            simp only
            split_ifs
            · exact .refl _
            · generalize hs₁ : s.modifySock l _ = s₁
              have hpush : names s₁ = names s := hs₁ ▸ names_modifySock_same fun _ => rfl
              exact .of_eq ((names_wakeReader s₁ l).trans hpush)

theorem names_drainBacklog (i : SockSlot) : ∀ (n : Nat) (s : NetKernel), names (drainBacklog n s i) = names s := by
  intro n
  induction n with
  | zero => exact fun _ => rfl
  | succ n ih =>
      intro s
      have hstep : drainBacklog (n + 1) s i = drainBacklog n (wakeClient (s.modifySock i fun x =>
          { x with backlogHead := (x.backlogHead + 1) % unixBacklogMax, backlogCount := x.backlogCount - 1 })
            ((s.sockTable i).backlog (s.sockTable i).backlogHead).clientPid) i := rfl
      rw [hstep, ih, names_wakeClient]
      exact names_modifySock_same fun _ => rfl

theorem dropped_destroy (s : NetKernel) (id : Int32) : Dropped (names s) (names (unixSockDestroy s id)) := by
  simp only [unixSockDestroy]
  cases unixSockGet s id with
  | none => exact .refl _
  | some i =>
      simp only
      have hwake : Dropped (names s) (names (wakeReader s i)) := .of_eq (names_wakeReader s i)
      generalize wakeReader s i = s₁ at hwake ⊢
      have hpeer : Dropped (names s₁) (names (closePeer s₁ i)) := by
        simp only [closePeer]
        split_ifs
        · have hself : ∀ s₂ : NetKernel, Dropped (names s₂) (names (s₂.modifySock i fun x => { x with peerId := -1 })) :=
            fun _ => .of_eq (names_modifySock_same fun _ => rfl)
          cases unixSockGet s₁ (s₁.sockTable i).peerId with
          | none => exact hself s₁
          | some p =>
              exact ((dropped_modifySock .closed (fun _ => rfl) (by decide)).trans (.of_eq (names_wakeReader _ _))).trans (hself _)
        · exact .refl _
      have hdrain : Dropped (names (closePeer s₁ i))
          (names (drainBacklog ((closePeer s₁ i).sockTable i).backlogCount (closePeer s₁ i) i)) :=
        .of_eq (names_drainBacklog i _ _)
      exact ((hwake.trans hpeer).trans hdrain).trans (dropped_modifySock .closed (fun _ => rfl) (by decide))

end Calls

/-! ### Runs -/

/-- The calls; a blocked `unix_sock_accept` goes on with another round, a `unix_sock_connect` with what is after its
`proc_yield`, and in between anything may become of the processes. -/
inductive SockCall where
  | create (type : SockType)
  | bind (id : Int32) (path : List UInt8)
  | listen (id : Int32)
  | accept (id : Int32) (frame : Registers)
  | connect (id : Int32) (path : List UInt8) (frame : Registers)
  | connectResume (id : Int32)
  | destroy (id : Int32)
  | processes (proc : Kernel)

/-- The sockets, with the path that each one was bound with last. -/
structure Bindings where
  net : NetKernel
  given : SockSlot → List UInt8 := fun _ => []

/-- The slot that `unix_sock_bind` gives a name to. -/
def bindSlot (s : NetKernel) (id : Int32) (path : List UInt8) : Option SockSlot :=
  (unixSockGet s id).filter fun i => (s.sockTable i).state = .created ∧ path ≠ [] ∧ findBound s path = none

def sockStep (s : Bindings) : SockCall → Option Bindings
  | .create type => some { s with net := (unixSockCreate s.net type).1 }
  | .bind id path =>
      some ⟨(unixSockBind s.net id path).1, (bindSlot s.net id path).elim s.given fun i => Function.update s.given i path⟩
  | .listen id => some { s with net := (unixSockListen s.net id).1 }
  | .accept id frame => some { s with net := (unixSockAccept s.net id frame).1 }
  | .connect id path frame => some { s with net := (unixSockConnect s.net id path frame).1 }
  | .connectResume id => some { s with net := (unixSockConnectResume s.net id).1 }
  | .destroy id => some { s with net := unixSockDestroy s.net id }
  | .processes proc => some { s with net := { s.net with proc := proc } }

/-- No two sockets are bound or listening under one path. -/
def UniqueNames (N : Names) : Prop := ∀ i j, (N i).Named → (N j).Named → (N i).path = (N j).path → i = j

/-- **Sound names**: they are unique, and a listener is found by the path it was bound with. -/
structure SoundNames (s : Bindings) : Prop where
  unique : UniqueNames (names s.net)
  found : ∀ i, (names s.net i).Listening → findListener s.net (s.given i) = some i

/-- The step binds no socket under a path of which the stored part is taken, and makes none listen that was bound under a
path that does not fit. -/
def KeepsNames (s : Bindings) : SockCall → Prop
  | .bind id path =>
      (∀ i, unixSockGet s.net id = some i → (s.net.sockTable i).state ≠ .created) ∨ path.length < unixPathMax ∨
        findBound s.net (stored path) = none
  | .listen id => ∀ i, unixSockGet s.net id = some i → (s.net.sockTable i).type = .stream → (s.net.sockTable i).state = .bound →
      (s.given i).length < unixPathMax
  | _ => True

/-- What is stored of a bound socket is of the path it was bound with. -/
def Tracked (s : Bindings) : Prop := ∀ i, (names s.net i).Named → (names s.net i).path = stored (s.given i)

section Steps

variable {s s' : Bindings}

/-- With unique names, a listener is found exactly if its path was not cut off. -/
theorem soundNames_iff (h : Tracked s) :
    SoundNames s ↔ UniqueNames (names s.net) ∧ ∀ i, (names s.net i).Listening → (s.given i).length < unixPathMax := by
  constructor
  · rintro ⟨hunique, hfound⟩
    refine ⟨hunique, fun i hi => ?_⟩
    obtain ⟨-, hpath⟩ := findListener_some (hfound i hi)
    rw [← hpath, h i hi.named]
    exact stored_length _
  · rintro ⟨hunique, hshort⟩
    refine ⟨hunique, fun i hi => ?_⟩
    have hpath : (names s.net i).path = s.given i := by rw [h i hi.named, stored_eq (hshort i hi)]
    obtain ⟨j, hj⟩ := findListener_isSome hi hpath
    obtain ⟨hlisten, hsame⟩ := findListener_some hj
    rw [hj, hunique j i hlisten.named hi.named (hsame.trans hpath.symm)]

variable (s) in
/-- The invariant of a run. -/
structure NamesInv : Prop where
  tracked : Tracked s
  sound : SoundNames s

/-- A step that gives no names keeps the invariant. -/
theorem NamesInv.dropped (h : NamesInv s) (hd : Dropped (names s.net) (names s'.net)) (hgiven : s'.given = s.given) :
    NamesInv s' := by
  obtain ⟨hunique, hshort⟩ := (soundNames_iff h.tracked).mp h.sound
  have htracked : Tracked s' := fun i hi => by
    have hsame := hd i hi
    rw [hsame, hgiven]
    exact h.tracked i (hsame ▸ hi)
  refine ⟨htracked, (soundNames_iff htracked).mpr ⟨fun i j hi hj hpath => ?_, fun i hi => ?_⟩⟩
  · have hsame := hd i hi
    have hsame' := hd j hj
    rw [hsame, hsame'] at hpath
    exact hunique i j (hsame ▸ hi) (hsame' ▸ hj) hpath
  · rw [hgiven]
    exact hshort i (hd i hi.named ▸ hi)

theorem NamesInv.keeps (h : NamesInv s) (hd : Dropped (names s.net) (names s'.net)) (hgiven : s'.given = s.given) :
    (SoundNames s' ↔ True) ∧ (True → NamesInv s') :=
  ⟨iff_true_intro (h.dropped hd hgiven).sound, fun _ => h.dropped hd hgiven⟩

/-- A socket that gets a name: the others keep theirs. -/
theorem names_bound {N : Names} {i : SockSlot} {x : SockName} (hx : x.Named) {P : SockSlot → Prop} :
    (∀ j, (Function.update N i x j).Named → P j) ↔ P i ∧ ∀ j, j ≠ i → (N j).Named → P j := by
  constructor
  · intro h
    refine ⟨h i (by rwa [Function.update_self]), fun j hj hn => h j ?_⟩
    rwa [Function.update_of_ne hj]
  · rintro ⟨hi, hall⟩ j hj
    by_cases hji : j = i
    · subst hji
      exact hi
    · rw [Function.update_of_ne hji] at hj
      exact hall j hji hj

/-- **`unix_sock_bind`**. -/
theorem unixSockBind_iff (h : NamesInv s) {id : Int32} {path : List UInt8} (hs : sockStep s (.bind id path) = some s') :
    (SoundNames s' ↔ KeepsNames s (.bind id path)) ∧ (KeepsNames s (.bind id path) → NamesInv s') := by
  obtain ⟨hunique, hshort⟩ := (soundNames_iff h.tracked).mp h.sound
  simp only [sockStep, Option.some.injEq] at hs
  subst hs
  -- a call that is refused changes nothing
  have hrefused : (unixSockBind s.net id path).1 = s.net → bindSlot s.net id path = none → KeepsNames s (.bind id path) →
      (SoundNames ⟨(unixSockBind s.net id path).1, (bindSlot s.net id path).elim s.given fun i => Function.update s.given i path⟩ ↔
        KeepsNames s (.bind id path)) ∧ (KeepsNames s (.bind id path) →
        NamesInv ⟨(unixSockBind s.net id path).1,
          (bindSlot s.net id path).elim s.given fun i => Function.update s.given i path⟩) := by
    intro hnet hslot hkeeps
    rw [hnet, hslot]
    exact ⟨iff_of_true h.sound hkeeps, fun _ => h⟩
  cases hget : unixSockGet s.net id with
  | none =>
      refine hrefused (by rw [unixSockBind, hget]) (by rw [bindSlot, hget]; rfl) (.inl fun i hi => ?_)
      rw [hget] at hi
      cases hi
  | some i =>
      by_cases hstate : (s.net.sockTable i).state = .created
      swap
      · refine hrefused (by simp only [unixSockBind, hget, if_pos hstate]) (by simp [bindSlot, hget, hstate])
          (.inl fun j hj => ?_)
        rw [hget] at hj
        cases hj
        exact hstate
      by_cases hempty : path = []
      · subst hempty
        exact hrefused (by simp [unixSockBind, hget, hstate]) (by simp [bindSlot, hget]) (.inr (.inl (by decide)))
      cases hfind : findBound s.net path with
      | some j =>
          refine hrefused (by simp [unixSockBind, hget, hstate, hempty, hfind]) (by simp [bindSlot, hget, hfind]) (.inr (.inl ?_))
          obtain ⟨hnamed, hpath⟩ := findBound_named hfind
          rw [← hpath, h.tracked j hnamed]
          exact stored_length _
      | none =>
          have hslot : bindSlot s.net id path = some i := by simp [bindSlot, hget, hstate, hempty, hfind]
          have hnet : (unixSockBind s.net id path).1 = s.net.modifySock i fun x =>
              { x with path := path.take (unixPathMax - 1), state := .bound } := by
            simp [unixSockBind, hget, hstate, hempty, hfind]
          rw [hslot, hnet]
          have hinUse : (names s.net i).inUse = true := (unixSockGet_eq_some.mp hget).2
          have hnot : ¬ (names s.net i).Named := fun hn => by
            rcases hn.2 with hb | hb <;> cases hstate.symm.trans hb
          have hnames : names (s.net.modifySock i fun x => { x with path := path.take (unixPathMax - 1), state := .bound }) =
              Function.update (names s.net) i ⟨true, .bound, stored path⟩ := by
            rw [names_modifySock, ← hinUse]
            rfl
          have hnew : (SockName.mk true .bound (stored path)).Named := ⟨rfl, .inl rfl⟩
          have htracked : Tracked ⟨s.net.modifySock i fun x => { x with path := path.take (unixPathMax - 1), state := .bound },
              Function.update s.given i path⟩ := by
            rw [Tracked, hnames, names_bound hnew]
            simp only [Function.update_self, true_and]
            intro j hj hn
            rw [Function.update_of_ne hj, Function.update_of_ne hj]
            exact h.tracked j hn
          have hkeeps : KeepsNames s (.bind id path) ↔ findBound s.net (stored path) = none := by
            refine ⟨fun hk => ?_, fun hk => .inr (.inr hk)⟩
            rcases hk with hk | hk | hk
            · exact absurd hstate (hk i hget)
            · rw [stored_eq hk]
              exact hfind
            · exact hk
          have hsound : SoundNames ⟨s.net.modifySock i fun x => { x with path := path.take (unixPathMax - 1), state := .bound },
              Function.update s.given i path⟩ ↔ KeepsNames s (.bind id path) := by
            rw [soundNames_iff htracked, hkeeps, findBound_none, hnames]
            constructor
            · rintro ⟨hu, -⟩ j hj hpath
              have hji : j ≠ i := fun e => hnot (e ▸ hj)
              refine hji (hu j i ?_ ?_ ?_)
              · rwa [Function.update_of_ne hji]
              · rwa [Function.update_self]
              · rw [Function.update_of_ne hji, Function.update_self]
                exact hpath
            · intro hfree
              refine ⟨fun j k => ?_, fun j hj => ?_⟩
              · by_cases hji : j = i
                · by_cases hki : k = i
                  · exact fun _ _ _ => hji.trans hki.symm
                  · subst hji
                    rw [Function.update_self, Function.update_of_ne hki]
                    exact fun _ hk hpath => absurd hpath.symm (hfree k hk)
                · by_cases hki : k = i
                  · subst hki
                    rw [Function.update_self, Function.update_of_ne hji]
                    exact fun hj _ hpath => absurd hpath (hfree j hj)
                  · rw [Function.update_of_ne hji, Function.update_of_ne hki]
                    exact hunique j k
              · by_cases hji : j = i
                · subst hji
                  rw [Function.update_self] at hj
                  cases hj.2
                · rw [Function.update_of_ne hji] at hj
                  show (Function.update s.given i path j).length < _
                  rw [Function.update_of_ne hji]
                  exact hshort j hj
          exact ⟨hsound, fun hk => ⟨htracked, hsound.mpr hk⟩⟩

/-- **`unix_sock_listen`**. -/
theorem unixSockListen_iff (h : NamesInv s) {id : Int32} (hs : sockStep s (.listen id) = some s') :
    (SoundNames s' ↔ KeepsNames s (.listen id)) ∧ (KeepsNames s (.listen id) → NamesInv s') := by
  obtain ⟨hunique, hshort⟩ := (soundNames_iff h.tracked).mp h.sound
  simp only [sockStep, Option.some.injEq] at hs
  subst hs
  have hrefused : (unixSockListen s.net id).1 = s.net → KeepsNames s (.listen id) →
      (SoundNames { s with net := (unixSockListen s.net id).1 } ↔ KeepsNames s (.listen id)) ∧
        (KeepsNames s (.listen id) → NamesInv { s with net := (unixSockListen s.net id).1 }) := by
    intro hnet hkeeps
    rw [hnet]
    exact ⟨iff_of_true h.sound hkeeps, fun _ => h⟩
  cases hget : unixSockGet s.net id with
  | none =>
      refine hrefused (by rw [unixSockListen, hget]) fun i hi => ?_
      rw [hget] at hi
      cases hi
  | some i =>
      have honly : ∀ {P : SockSlot → Prop}, (∀ j, unixSockGet s.net id = some j → P j) ↔ P i := by
        intro P
        rw [hget]
        exact ⟨fun hall => hall i rfl, fun hi j hj => Option.some.inj hj ▸ hi⟩
      by_cases htype : (s.net.sockTable i).type = .stream
      swap
      · exact hrefused (by simp [unixSockListen, hget, htype]) (honly.mpr fun ht => absurd ht htype)
      by_cases hbound : (s.net.sockTable i).state = .bound
      swap
      · exact hrefused (by simp [unixSockListen, hget, htype, hbound]) (honly.mpr fun _ hb => absurd hb hbound)
      have hkeeps : KeepsNames s (.listen id) ↔ (s.given i).length < unixPathMax :=
        honly.trans ⟨fun hk => hk htype hbound, fun hk _ _ => hk⟩
      have hnet : (unixSockListen s.net id).1 = s.net.modifySock i fun x => { x with state := .listening } := by
        simp [unixSockListen, hget, htype, hbound]
      have hinUse : (names s.net i).inUse = true := (unixSockGet_eq_some.mp hget).2
      have hold : (names s.net i).Named := ⟨hinUse, .inl hbound⟩
      rw [hnet]
      have hnames : names (s.net.modifySock i fun x => { x with state := .listening }) =
          Function.update (names s.net) i ⟨true, .listening, (names s.net i).path⟩ := by
        rw [names_modifySock, ← hinUse]
        rfl
      have hnew : (SockName.mk true .listening (names s.net i).path).Named := ⟨rfl, .inr rfl⟩
      -- the same sockets have the same paths
      have hpath : ∀ j, (Function.update (names s.net) i ⟨true, .listening, (names s.net i).path⟩ j).path = (names s.net j).path := by
        intro j
        by_cases hji : j = i
        · subst hji
          rw [Function.update_self]
        · rw [Function.update_of_ne hji]
      have hnamed : ∀ j, (Function.update (names s.net) i ⟨true, .listening, (names s.net i).path⟩ j).Named → (names s.net j).Named :=
        (names_bound hnew).mpr ⟨hold, fun _ _ hn => hn⟩
      have htracked : Tracked { s with net := s.net.modifySock i fun x => { x with state := .listening } } := by
        intro j hj
        simp only [hnames] at hj ⊢
        rw [hpath]
        exact h.tracked j (hnamed j hj)
      have hsound : SoundNames { s with net := s.net.modifySock i fun x => { x with state := .listening } } ↔
          KeepsNames s (.listen id) := by
        rw [soundNames_iff htracked, hkeeps]
        simp only [hnames]
        constructor
        · rintro ⟨-, hall⟩
          exact hall i (by rw [Function.update_self]; exact ⟨rfl, rfl⟩)
        · intro hi
          refine ⟨fun j k hj hk he => hunique j k (hnamed j hj) (hnamed k hk) ?_, fun j hj => ?_⟩
          · rwa [hpath, hpath] at he
          · by_cases hji : j = i
            · exact hji ▸ hi
            · rw [Function.update_of_ne hji] at hj
              exact hshort j hj
      exact ⟨hsound, fun hk => ⟨htracked, hsound.mpr hk⟩⟩

/-- **One step**. -/
theorem sockStep_iff (h : NamesInv s) {o : SockCall} (hs : sockStep s o = some s') :
    (SoundNames s' ↔ KeepsNames s o) ∧ (KeepsNames s o → NamesInv s') := by
  cases o with
  | create type => cases hs; exact h.keeps (dropped_create s.net type) rfl
  | bind id path => exact unixSockBind_iff h hs
  | listen id => exact unixSockListen_iff h hs
  | accept id frame => cases hs; exact h.keeps (dropped_accept s.net id frame) rfl
  | connect id path frame => cases hs; exact h.keeps (dropped_connect s.net id path frame) rfl
  | connectResume id =>
      cases hs
      refine h.keeps (.of_eq (congrArg names ?_)) rfl
      simp only [unixSockConnectResume]
      cases unixSockGet s.net id with
      | none => rfl
      | some i => simp only; split <;> rfl
  | destroy id => cases hs; exact h.keeps (dropped_destroy s.net id) rfl
  | processes proc => cases hs; exact h.keeps (.refl _) rfl

/-- After `unix_sock_init`. -/
theorem namesInv_init (proc : Kernel) : NamesInv ⟨{ proc := proc }, fun _ => []⟩ := by
  have hfree : ∀ i, ¬ (names { proc := proc } i).Named := fun i hn => Bool.false_ne_true hn.1
  exact ⟨fun i hi => absurd hi (hfree i), fun i _ hi => absurd hi (hfree i), fun i hi => absurd hi.named (hfree i)⟩

end Steps

/-- **The names of sockets** are sound in every state of a run exactly when every step keeps them. -/
theorem names_sound_iff (proc : Kernel) (os : List SockCall) :
    Along sockStep (fun _ _ s' => SoundNames s') ⟨{ proc := proc }, fun _ => []⟩ os ↔
      Along sockStep (fun s o _ => KeepsNames s o) ⟨{ proc := proc }, fun _ => []⟩ os :=
  @along_iff_of_inv _ _ sockStep NamesInv (fun _ _ s' => SoundNames s') (fun s o _ => KeepsNames s o)
    (fun _ _ _ h hs => sockStep_iff h hs) os _ (namesInv_init proc)

/-- A path that is one character too long. -/
def longPath : List UInt8 := List.replicate 108 97

/-- No process runs. -/
def idleKernel : Kernel := { users := ⟨fun _ => {}, fun _ => {}⟩ }

/-- Two sockets are bound under it; one of them listens, and is not found. -/
theorem names_taken_twice :
    ¬ Along sockStep (fun _ _ s' => SoundNames s') ⟨{ proc := idleKernel }, fun _ => []⟩
      [.create .stream, .create .stream, .bind 0 longPath, .bind 1 longPath] ∧
    ¬ Along sockStep (fun _ _ s' => SoundNames s') ⟨{ proc := idleKernel }, fun _ => []⟩
      [.create .stream, .bind 0 longPath, .listen 0] := by
  constructor
  · intro h
    have hlast := (h _ rfl).2 _ rfl |>.2 _ rfl |>.2 _ rfl |>.1.unique
    have hboth : (0 : SockSlot) = 1 := hlast 0 1 ⟨by decide +kernel, .inl (by decide +kernel)⟩
      ⟨by decide +kernel, .inl (by decide +kernel)⟩ (by decide +kernel)
    exact absurd hboth (by decide)
  · intro h
    have hlast := (h _ rfl).2 _ rfl |>.2 _ rfl |>.1.found
    have hfound := hlast 0 ⟨by decide +kernel, by decide +kernel⟩
    exact absurd hfound (by decide +kernel)

end Blackmount.Net
