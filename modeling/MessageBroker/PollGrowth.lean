import MessageBroker.PollArray

/-!
# Growing the array of descriptors

As long as the block is not resized the array is the list of the descriptors added and not
removed. The first time it is resized it is too small for the entries it holds.
-/
namespace MessageBroker.PollGrowth
open ServerStops PollArray

/-- A call of `add_new_pollfd_struc`, or the removal at the end of `handle_shutdown_sub`. -/
inductive Op
  | add (fd : ℕ)
  | remove (fd : ℕ)

/-- The block has room for the capacity, and the capacity is not exceeded. -/
structure Sound (t : SvFds) : Prop where
  block : t.capacity * sizeofPollfd ≤ t.blockBytes
  count : t.count ≤ t.capacity

/-- Through all calls the array is sound, and each addition writes into the block, appends its
descriptor and keeps the earlier entries. The server ends when a descriptor is not found. -/
def GrowsSafely : SvFds → List Op → Prop
  | t, [] => Sound t
  | t, .add fd :: ops => Sound t ∧ ∃ t', t.addNewPollfdStruc fd = .ok t' ∧
      t'.entries = t.entries ++ [⟨fd, pollin⟩] ∧ GrowsSafely t' ops
  | t, .remove fd :: ops => Sound t ∧
      ∀ idx, t.getPollStrucByFd fd = some idx → GrowsSafely (t.removeAt idx) ops

/-- The array at each addition is smaller than its first capacity. -/
def HasRoom : List ℕ → List Op → Prop
  | _, [] => True
  | fds, .add fd :: ops => fds.length < backlogMax ∧ HasRoom (fds ++ [fd]) ops
  | fds, .remove fd :: ops => fd ∈ fds → HasRoom (fds.erase fd) ops

instance decidableHasRoom : (fds : List ℕ) → (ops : List Op) → Decidable (HasRoom fds ops)
  | _, [] => isTrue trivial
  | fds, .add fd :: ops =>
    have := decidableHasRoom (fds ++ [fd]) ops
    inferInstanceAs (Decidable (_ ∧ _))
  | fds, .remove fd :: ops =>
    have := decidableHasRoom (fds.erase fd) ops
    inferInstanceAs (Decidable (_ → _))

variable {t : SvFds}

private theorem sound_of_initial (h : t.Initial) : Sound t where
  block := by rw [h.capacity, h.block]
  count := by
    rw [h.capacity]
    exact h.room

/-- A removal takes the first occurrence out of the list. -/
theorem removeAt_eq_erase {fd idx : ℕ} (h : t.getPollStrucByFd fd = some idx) :
    fd ∈ t.entries.map Pollfd.fd ∧
      (t.removeAt idx).entries.map Pollfd.fd = (t.entries.map Pollfd.fd).erase fd ∧
      (t.Initial → (t.removeAt idx).Initial) := by
  obtain ⟨hlt, hfd, hfirst⟩ := List.findIdx?_eq_some_iff_getElem.mp h
  have hentries : t.entries = t.entries.take idx ++ t.entries[idx] :: t.entries.drop (idx + 1) := by
    rw [← List.drop_eq_getElem_cons hlt, List.take_append_drop]
  have hlen : (t.entries.take idx).length = idx := List.length_take_of_le hlt.le
  have hremove := removeAt_append t hentries
  rw [hlen] at hremove
  have hat : t.entries[idx].fd = fd := of_decide_eq_true hfd
  have hbefore : fd ∉ (t.entries.take idx).map Pollfd.fd := by
    intro hmem
    obtain ⟨e, he, hefd⟩ := List.mem_map.mp hmem
    obtain ⟨j, hj, rfl⟩ := List.mem_iff_getElem.mp he
    rw [hlen] at hj
    rw [List.getElem_take] at hefd
    exact hfirst j hj (decide_eq_true hefd)
  refine ⟨?_, ?_, ?_⟩
  · exact List.mem_map.mpr ⟨_, List.getElem_mem hlt, hat⟩
  · rw [hremove]
    conv_rhs => rw [hentries]
    rw [List.map_append, List.map_append, List.map_cons, hat, List.erase_append_right _ hbefore,
      List.erase_cons_head]
  · intro hi
    rw [hremove]
    refine ⟨hi.capacity, hi.block, ?_⟩
    have hroom := hi.room
    have hcount := congrArg List.length hentries
    simp only [SvFds.count, List.length_append, List.length_cons] at hroom hcount ⊢
    omega

private theorem mem_of_getPollStrucByFd_none {fd : ℕ} (h : t.getPollStrucByFd fd = none) :
    fd ∉ t.entries.map Pollfd.fd := by
  intro hmem
  obtain ⟨e, he, hfd⟩ := List.mem_map.mp hmem
  have hno := List.findIdx?_eq_none_iff.mp h e he
  exact absurd (decide_eq_true hfd) (by rw [hno]; simp)

/-- From an array that has not been resized, the calls are safe exactly if none needs more room. -/
theorem growsSafely_iff_hasRoom (h : t.Initial) (ops : List Op) :
    GrowsSafely t ops ↔ HasRoom (t.entries.map Pollfd.fd) ops := by
  induction ops generalizing t with
  | nil => exact ⟨fun _ => trivial, fun _ => sound_of_initial h⟩
  | cons op ops ih =>
    cases op with
    | add fd =>
      rw [GrowsSafely, HasRoom, List.length_map]
      constructor
      · rintro ⟨_, t', ht', _, hrest⟩
        by_cases hlt : t.count < backlogMax
        · rw [addNewPollfdStruc_of_room h hlt] at ht'
          cases ht'
          have hmap := (ih (h.add hlt ⟨fd, pollin⟩)).mp hrest
          rw [List.map_append] at hmap
          exact ⟨hlt, hmap⟩
        · rw [addNewPollfdStruc_of_full h hlt] at ht'
          cases ht'
      · rintro ⟨hlt, hroom⟩
        refine ⟨sound_of_initial h, _, addNewPollfdStruc_of_room h hlt fd, rfl, ?_⟩
        apply (ih (h.add hlt ⟨fd, pollin⟩)).mpr
        rw [List.map_append]
        exact hroom
    | remove fd =>
      rw [GrowsSafely, HasRoom]
      constructor
      · rintro ⟨_, hall⟩ hmem
        cases hidx : t.getPollStrucByFd fd with
        | none => exact absurd hmem (mem_of_getPollStrucByFd_none hidx)
        | some idx =>
          obtain ⟨-, herase, hinitial⟩ := removeAt_eq_erase hidx
          rw [← herase]
          exact (ih (hinitial h)).mp (hall idx hidx)
      · intro hroom
        refine ⟨sound_of_initial h, ?_⟩
        intro idx hidx
        obtain ⟨hmem, herase, hinitial⟩ := removeAt_eq_erase hidx
        apply (ih (hinitial h)).mpr
        rw [herase]
        exact hroom hmem

private theorem initial_of_pushBasicFds (tcpSock udpSock : ℕ) :
    ∃ t, pushBasicFds tcpSock udpSock = .ok t ∧ t.Initial ∧
      t.entries.map Pollfd.fd = [0, tcpSock, udpSock] :=
  ⟨_, pushBasicFds_eq tcpSock udpSock, ⟨rfl, rfl, by simp [SvFds.count, backlogMax]⟩, rfl⟩

/-- Behind `push_basic_fds` the array grows safely exactly while it has fewer than 64 entries. -/
theorem growsSafely_iff (tcpSock udpSock : ℕ) (ops : List Op) :
    ∃ t, pushBasicFds tcpSock udpSock = .ok t ∧
      (GrowsSafely t ops ↔ HasRoom [0, tcpSock, udpSock] ops) := by
  obtain ⟨t, ht, hinitial, hfds⟩ := initial_of_pushBasicFds tcpSock udpSock
  exact ⟨t, ht, hfds ▸ growsSafely_iff_hasRoom hinitial ops⟩

/-- The 62nd client is written behind the block. -/
theorem growsSafely_fails : ∃ t, pushBasicFds 3 4 = .ok t ∧
    ¬ GrowsSafely t ((List.range 62).map (fun n => .add (n + 5))) := by
  obtain ⟨t, ht, hinitial, hfds⟩ := initial_of_pushBasicFds 3 4
  refine ⟨t, ht, ?_⟩
  rw [growsSafely_iff_hasRoom hinitial, hfds]
  decide +kernel

end MessageBroker.PollGrowth
