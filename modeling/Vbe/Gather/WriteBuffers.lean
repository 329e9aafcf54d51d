import Mathlib.Data.List.Nodup
import Vbe.Gather.Chunks

/-! Buffers that share allocators do not come into each other's way. -/
namespace Vbe.Gather.Chunks

section Worlds
variable {config : Config} {w w' : World} {contents : List Contents} {l : Label} {b b' : WriteBuffer} {i : Nat}

def kinds : List Kind := [.defaultAllocator,.typicalContiguousAllocator,.maxContiguousAllocator]

/-- The arrays that an allocator may hand out, and those of the buffers. -/
def World.owned (w : World) : List Nat :=
  kinds.flatMap (fun k => (w.allocators k).freeList) ++ w.buffers.flatMap WriteBuffer.arrays

def World.alive (config : Config) (w : World) (k : Kind) : Nat := (w.buffers.flatMap fun b => b.alive config w.mem k).length

structure World.Sound (config : Config) (w : World) : Prop where
  apart : w.owned.Nodup
  known : ∀ id ∈ w.owned, id < w.mem.length
  allocators : ∀ k, (w.allocators k).Sound config w.mem k
  buffers : ∀ b ∈ w.buffers, b.Sound w.mem
  alive : ∀ k, (w.allocators k).allocated ≤ (w.allocators k).freed + w.alive config k

theorem free_owned (w : World) (k : Kind) : ∀ id ∈ (w.allocators k).freeList, id ∈ w.owned := fun id member => by
  refine List.mem_append_left _ (List.mem_flatMap.mpr ⟨k,?_,member⟩)
  cases k <;> decide

theorem held_owned (found : w.buffers[i]? = some b) : ∀ s ∈ b.held, s.array ∈ w.owned := fun _ member =>
  List.mem_append_right _ (List.mem_flatMap.mpr ⟨b,List.mem_of_getElem? found,List.mem_map_of_mem member⟩)

theorem flatMap_focus {α β : Type} {l : List α} {i : Nat} {a : α} (found : l[i]? = some a) (f : α → List β) :
    ∃ rest, (l.flatMap f).Perm (f a ++ rest) ∧ ∀ a', ((l.set i a').flatMap f).Perm (f a' ++ rest) := by
  induction l generalizing i with
  | nil => cases found
  | cons b l ih =>
    cases i with
    | zero =>
      cases Option.some.inj found
      exact ⟨l.flatMap f,.refl _,fun _ => .refl _⟩
    | succ i =>
      obtain ⟨rest,here,there⟩ := ih found
      refine ⟨f b ++ rest,?_,fun a' => ?_⟩
      · exact (here.append_left _).trans (List.perm_append_comm_assoc ..)
      · exact ((there a').append_left _).trans (List.perm_append_comm_assoc ..)

theorem free_focus (al : Allocators) (k : Kind) : ∃ rest, (kinds.flatMap fun k => (al k).freeList).Perm ((al k).freeList ++ rest) ∧
    ∀ a', (kinds.flatMap fun k' => (setAllocator al k a' k').freeList).Perm (a'.freeList ++ rest) := by
  cases k with
  | defaultAllocator => exact ⟨_,.refl _,fun _ => .refl _⟩
  | typicalContiguousAllocator => exact ⟨_,List.perm_append_comm_assoc ..,fun _ => List.perm_append_comm_assoc ..⟩
  | maxContiguousAllocator =>
    have last (a b c : List Nat) : (a ++ (b ++ (c ++ []))).Perm (c ++ (a ++ b)) := by
      rw [List.append_nil,← List.append_assoc]
      exact List.perm_append_comm
    exact ⟨_,last _ _ _,fun _ => last _ _ _⟩

/-- What one allocator and one buffer have, and what the others have. -/
theorem owned_focus (found : w.buffers[i]? = some b) (k : Kind) : ∃ rest, w.owned.Perm ((w.allocators k).freeList ++ b.arrays ++ rest) ∧
    ∀ a' b' mem, (World.owned ⟨mem,setAllocator w.allocators k a',w.buffers.set i b'⟩).Perm (a'.freeList ++ b'.arrays ++ rest) := by
  obtain ⟨free,before,after⟩ := free_focus w.allocators k
  obtain ⟨held,before',after'⟩ := flatMap_focus found WriteBuffer.arrays
  have shuffle (a b : List Nat) : (a ++ free ++ (b ++ held)).Perm (a ++ b ++ (free ++ held)) := by
    simp only [List.append_assoc]
    exact (List.perm_append_comm_assoc ..).append_left _
  exact ⟨free ++ held,(before.append before').trans (shuffle _ _),fun a' b' _ => ((after a').append (after' b')).trans (shuffle _ _)⟩

theorem World.Sound.ready (sound : w.Sound config) (found : w.buffers[i]? = some b) : Ready config w.mem w.allocators b := by
  refine ⟨sound.allocators,fun k id member => sound.known id (free_owned w k id member),sound.buffers b (List.mem_of_getElem? found),
    fun s member => sound.known _ (held_owned found s member),?_⟩
  obtain ⟨rest,perm,-⟩ := owned_focus found .defaultAllocator
  have nodup := perm.nodup_iff.mp sound.apart
  exact (List.nodup_append.mp (List.nodup_append.mp nodup).1).2.1

theorem others_apart (sound : w.Sound config) (found : w.buffers[i]? = some b) {j : Nat} {other : WriteBuffer} (there : w.buffers[j]? = some other)
    (different : i ≠ j) {id : Nat} (member : id ∈ b.arrays) : id ∉ other.arrays := by
  have apart := (List.nodup_flatMap.mp (List.nodup_append.mp sound.apart).2.1).2
  obtain ⟨inside,rfl⟩ := List.getElem?_eq_some_iff.mp found
  obtain ⟨inside',rfl⟩ := List.getElem?_eq_some_iff.mp there
  intro again
  rcases Nat.lt_or_gt_of_ne different with before | behind
  · exact List.pairwise_iff_getElem.mp apart i j inside inside' before member again
  · exact List.pairwise_iff_getElem.mp apart j i inside' inside behind again member


theorem WriteBuffer.Sound.kept {mem mem' : Memory} {touched : List Nat} (sound : b.Sound mem) (touch : Touched mem mem' touched)
    (known : ∀ s ∈ b.held, s.array < mem.length) : b.Sound mem' :=
  ⟨fun s member => touch.caps _ (known s member) ▸ sound.fits s member,sound.made,sound.emptied⟩

theorem World.Sound.held_known (sound : w.Sound config) (member : b ∈ w.buffers) : ∀ s ∈ b.held, s.array < w.mem.length := fun s inside => by
  obtain ⟨j,there⟩ := List.mem_iff_getElem?.mp member
  exact sound.known _ (held_owned there s inside)

theorem World.Sound.alive_kept {mem' : Memory} {touched : List Nat} {k : Kind} (sound : w.Sound config) (touch : Touched w.mem mem' touched) :
    (w.buffers.flatMap fun b => b.alive config mem' k) = w.buffers.flatMap fun b => b.alive config w.mem k :=
  List.flatMap_congr fun _ member => alive_touched touch (sound.held_known member)

/-- What a move of one buffer does to all. -/
theorem sound_went {change : Contents → Contents} {k : Kind} {fresh touched : List Nat} {mem' : Memory} {a' : Allocator} (sound : w.Sound config)
    (found : w.buffers[i]? = some b) (went : Went change config k fresh touched w.mem mem' (w.allocators k) a' b b') :
    World.Sound config ⟨mem',setAllocator w.allocators k a',w.buffers.set i b'⟩ := by
  obtain ⟨rest,before,after⟩ := owned_focus found k
  have within : (World.owned ⟨mem',setAllocator w.allocators k a',w.buffers.set i b'⟩).Subperm (fresh ++ w.owned) := by
    refine (after a' b' mem').subperm.trans ?_
    refine (went.owned.append (.refl rest)).trans ?_
    rw [List.append_assoc]
    exact (before.symm.append_left fresh).subperm
  have known_fresh : ∀ id ∈ fresh ++ w.owned, id < mem'.length := by
    intro id member
    rcases List.mem_append.mp member with new | old
    · rcases went.new with none | ⟨one,longer⟩
      · exact absurd (none ▸ new) List.not_mem_nil
      · rw [one,List.mem_singleton] at new
        exact new ▸ longer
    · exact Nat.lt_of_lt_of_le (sound.known id old) went.touch.longer
  have apart : (fresh ++ w.owned).Nodup := by
    rcases went.new with none | ⟨one,-⟩
    · rw [none]
      exact sound.apart
    · rw [one]
      exact List.nodup_cons.mpr ⟨fun old => Nat.lt_irrefl _ (sound.known _ old),sound.apart⟩
  refine ⟨?_,fun id member => known_fresh id (within.subset member),fun k' => ?_,fun b'' member => ?_,fun k' => ?_⟩
  · obtain ⟨l,same,sub⟩ := within
    exact same.nodup_iff.mp (apart.sublist sub)
  · dsimp only [setAllocator]
    split
    next same =>
      subst same
      exact went.allocator
    next => exact (sound.allocators k').kept went.touch fun id member => sound.known id (free_owned w k' id member)
  · rcases List.mem_or_eq_of_mem_set member with old | rfl
    · exact (sound.buffers b'' old).kept went.touch (sound.held_known old)
    · exact went.buffer
  · obtain ⟨others,here,there⟩ := flatMap_focus found fun b => b.alive config mem' k'
    have count := here.length_eq
    rw [sound.alive_kept went.touch,List.length_append,alive_touched went.touch (sound.held_known (List.mem_of_getElem? found))] at count
    have count' := (there b').length_eq
    rw [List.length_append] at count'
    have alive := sound.alive k'
    unfold World.alive at alive ⊢
    dsimp only [setAllocator] at count' ⊢
    split
    next same =>
      subst same
      have := went.alive
      omega
    next different =>
      have := went.others k' different
      omega

/-- Each buffer agrees with its contents. -/
structure Tells (w : World) (contents : List Contents) : Prop where
  length : w.buffers.length = contents.length
  agrees : ∀ (i : Nat) b c, w.buffers[i]? = some b → contents[i]? = some c → Agrees w.mem b c

theorem Tells.told (tells : Tells w contents) (found : w.buffers[i]? = some b) : ∃ c, contents[i]? = some c :=
  ⟨_,List.getElem?_eq_getElem (tells.length ▸ (List.getElem?_eq_some_iff.mp found).1)⟩

theorem Agrees.kept {mem mem' : Memory} {touched : List Nat} {c : Contents} (agrees : Agrees mem b c) (touch : Touched mem mem' touched)
    (known : ∀ s ∈ b.held, s.array < mem.length) (apart : ∀ id ∈ touched, id ∉ b.arrays) : Agrees mem' b c := by
  have same : mem'.flat b.Slices = mem.flat b.Slices :=
    touch.flat (fun s member => known s (List.mem_append_left _ member)) fun s member inside =>
      apart _ inside (List.mem_map_of_mem (List.mem_append_left _ member))
  unfold Agrees at agrees ⊢
  rwa [same]

theorem tells_went {change : Contents → Contents} {k : Kind} {fresh touched : List Nat} {mem' : Memory} {a' : Allocator} (sound : w.Sound config)
    (tells : Tells w contents) (found : w.buffers[i]? = some b)
    (went : Went change config k fresh touched w.mem mem' (w.allocators k) a' b b') (al : Allocators) :
    Tells ⟨mem',al,w.buffers.set i b'⟩ (contents.modify i change) := by
  refine ⟨by simpa using tells.length,fun j b'' c there told => ?_⟩
  dsimp only at there ⊢
  rw [List.getElem?_modify] at told
  by_cases same : i = j
  · subst same
    have inside := (List.getElem?_eq_some_iff.mp found).1
    rw [List.getElem?_set_self inside] at there
    cases there
    obtain ⟨c',before,rfl⟩ := Option.map_eq_some_iff.mp told
    rw [if_pos rfl]
    exact went.agrees c' (tells.agrees i b c' found before)
  · rw [List.getElem?_set_ne same] at there
    obtain ⟨c',before,rfl⟩ := Option.map_eq_some_iff.mp told
    rw [if_neg same]
    exact (tells.agrees j b'' c' there before).kept went.touch (fun s member => sound.known _ (held_owned there s member))
      fun id member => others_apart sound found there same (went.own id member)

/-- Another buffer, with a new array or none. -/
theorem sound_added {fresh : List Nat} {mem' : Memory} (sound : w.Sound config) (touch : Touched w.mem mem' [])
    (new : fresh = [] ∨ fresh = [w.mem.length] ∧ w.mem.length < mem'.length) (arrays : b.arrays = fresh) (buffer : b.Sound mem') :
    World.Sound config ⟨mem',w.allocators,w.buffers ++ [b]⟩ := by
  have owned : World.owned ⟨mem',w.allocators,w.buffers ++ [b]⟩ = w.owned ++ fresh := by
    rw [World.owned,List.flatMap_append,← List.append_assoc,List.flatMap_singleton,arrays]
    rfl
  refine ⟨?_,fun id member => ?_,fun k => (sound.allocators k).kept touch fun id member => sound.known id (free_owned w k id member),
    fun b' member => ?_,fun k => ?_⟩
  · rw [owned]
    rcases new with none | ⟨one,-⟩
    · rw [none,List.append_nil]
      exact sound.apart
    · rw [one]
      exact (List.perm_append_singleton _ _).nodup_iff.mpr
        (List.nodup_cons.mpr ⟨fun old => Nat.lt_irrefl _ (sound.known _ old),sound.apart⟩)
  · rw [owned] at member
    rcases List.mem_append.mp member with old | made
    · exact Nat.lt_of_lt_of_le (sound.known id old) touch.longer
    · rcases new with none | ⟨one,longer⟩
      · exact absurd (none ▸ made) List.not_mem_nil
      · rw [one,List.mem_singleton] at made
        exact made ▸ longer
  · rcases List.mem_append.mp member with old | last
    · exact (sound.buffers b' old).kept touch (sound.held_known old)
    · exact List.mem_singleton.mp last ▸ buffer
  · have alive := sound.alive k
    unfold World.alive at alive ⊢
    dsimp only
    rw [List.flatMap_append,sound.alive_kept touch,List.length_append]
    omega

theorem tells_added {mem' : Memory} {c : Contents} (sound : w.Sound config) (tells : Tells w contents) (touch : Touched w.mem mem' [])
    (agrees : Agrees mem' b c) (al : Allocators) : Tells ⟨mem',al,w.buffers ++ [b]⟩ (contents ++ [c]) := by
  refine ⟨by simpa using tells.length,fun j b' c' there told => ?_⟩
  dsimp only at there ⊢
  by_cases old : j < w.buffers.length
  · rw [List.getElem?_append_left old] at there
    rw [List.getElem?_append_left (tells.length ▸ old)] at told
    exact (tells.agrees j b' c' there told).kept touch (fun s member => sound.known _ (held_owned there s member))
      fun id member => absurd member List.not_mem_nil
  · have last : j = w.buffers.length := by
      have := (List.getElem?_eq_some_iff.mp there).1
      simp only [List.length_append,List.length_singleton] at this
      omega
    subst last
    rw [List.getElem?_concat_length] at there
    rw [tells.length,List.getElem?_concat_length] at told
    cases there
    cases told
    exact agrees

/-- What holds of all buffers, whichever of them moves. -/
theorem step_kept (sound : w.Sound config) (tells : Tells w contents) (taken : step config w l = some w') :
    w'.Sound config ∧ Tells w' (told contents l) := by
  have same := setAllocator_same w.allocators .defaultAllocator
  have empty (alloc : Option Kind) : (WriteBuffer.fresh alloc).Sound w.mem ∧ Agrees w.mem (.fresh alloc) .empty :=
    ⟨⟨fun s member => absurd member List.not_mem_nil,Nat.le_refl _,emptied_idle rfl⟩,.nil,rfl,rfl⟩
  cases l with
  | NewWriteBuffer =>
    cases Option.some.inj taken
    exact ⟨sound_added sound (.refl _) (.inl rfl) rfl (empty _).1,tells_added sound tells (.refl _) (empty _).2 _⟩
  | NewWriteBufferMaxContiguous =>
    cases Option.some.inj taken
    exact ⟨sound_added sound (.refl _) (.inl rfl) rfl (empty _).1,tells_added sound tells (.refl _) (empty _).2 _⟩
  | Dup i =>
    rw [step] at taken
    split at taken
    next => cases taken
    next b found =>
      split at taken
      next open_ =>
        cases Option.some.inj taken
        obtain ⟨idle,valid⟩ := Bool.and_eq_true_iff.mp open_
        have idle : b.call = none := Option.isNone_iff_eq_none.mp idle
        obtain ⟨c,known⟩ := tells.told found
        have agrees := tells.agrees i b c found known
        simp only [Agrees,idle] at agrees
        have touch := Touched.push w.mem (w.mem.flat b.Slices)
        have held : WriteBuffer.held ⟨b.alloc,[⟨w.mem.length,(w.mem.flat b.Slices).length⟩],true,0,none⟩ =
          [⟨w.mem.length,(w.mem.flat b.Slices).length⟩] := held_idle rfl
        refine ⟨sound_added sound touch (.inr ⟨rfl,by simp⟩) (by rw [WriteBuffer.arrays,held]; rfl) ⟨?_,Nat.zero_le _,?_⟩,
          tells_added sound tells touch ?_ _⟩
        · intro s member
          rw [held,List.mem_singleton] at member
          exact member ▸ Nat.le_of_eq (congrArg List.length (get_push w.mem _)).symm
        · exact emptied_idle rfl
        · rw [known]
          refine ⟨?_,rfl,valid.symm.trans agrees.2.2⟩
          rw [flat_singleton,Memory.bytes,get_push,List.take_length]
          exact agrees.1
      next => cases taken
  | call i op =>
    rw [step] at taken
    split at taken
    next => cases taken
    next b found =>
      obtain ⟨b',started,rfl⟩ := Option.map_eq_some_iff.mp taken
      have went := went_begin (sound.ready found) started .defaultAllocator
      have kept := sound_went sound found went
      rw [same] at kept
      exact ⟨kept,tells_went sound tells found went _⟩
  | go i =>
    rw [step] at taken
    split at taken
    next => cases taken
    next b found =>
      obtain ⟨⟨mem',al',b'⟩,moved,rfl⟩ := Option.map_eq_some_iff.mp taken
      obtain ⟨k,fresh,touched,a',rfl,went⟩ := went (sound.ready found) moved
      have told := tells_went sound tells found went (setAllocator w.allocators k a')
      have unchanged : contents.modify i id = contents := by simp
      rw [unchanged] at told
      exact ⟨sound_went sound found went,told⟩
  | store i offset data =>
    rw [step] at taken
    split at taken
    next => cases taken
    next b found =>
      split at taken
      next => cases taken
      next s rest slices =>
        split at taken
        next inside =>
          cases Option.some.inj taken
          have went := went_store (sound.ready found) slices inside .defaultAllocator
          have kept := sound_went sound found went
          have told := tells_went sound tells found went w.allocators
          have unset : w.buffers.set i b = w.buffers := by
            obtain ⟨listed,rfl⟩ := List.getElem?_eq_some_iff.mp found
            exact List.set_getElem_self listed
          rw [same,unset] at kept
          rw [unset] at told
          exact ⟨kept,told⟩
        next => cases taken

theorem start_sound (config : Config) : World.start.Sound config := by
  refine ⟨by decide,fun id member => absurd member (by decide +revert),fun k => ⟨?_,Nat.le_refl _,Nat.zero_le _,Int.le_refl _⟩,?_,fun _ => Nat.le_refl _⟩
  · exact fun id member => absurd member List.not_mem_nil
  · exact fun b member => absurd member List.not_mem_nil

theorem start_tells : Tells .start [] := ⟨rfl,fun i b c found _ => by cases found⟩

theorem run_kept {labels : List Label} (sound : w.Sound config) (tells : Tells w contents)
    (reached : Library.Runs.run (step config) w labels = some w') : w'.Sound config ∧ Tells w' (labels.foldl told contents) := by
  induction labels generalizing w contents with
  | nil =>
    cases Option.some.inj reached
    exact ⟨sound,tells⟩
  | cons l rest ih =>
    cases taken : step config w l with
    | none => simp [Library.Runs.run,taken] at reached
    | some v =>
      rw [Library.Runs.run_cons taken] at reached
      obtain ⟨sound,tells⟩ := step_kept sound tells taken
      exact ih sound tells reached

/-- Small chunks, of which one is kept. -/
def small : Config := ⟨fun _ => 2,fun _ => 1⟩

/-- A chunk of one buffer becomes one of another while that one appends. -/
def passed : List Label :=
  [.NewWriteBuffer,.NewWriteBuffer,.call 0 (.Append [1,2,3]),.go 0,.go 0,.call 1 (.Append [7]),.go 0,.go 0,.go 0,.call 0 (.after .Close),
    .go 0,.go 1,.go 1,.go 1,.go 0,.go 0,.go 0]

end Worlds

section Ends
variable {config : Config} {mem mem' : Memory} {al al' : Allocators} {w w' : World} {l : Label} {b b' : WriteBuffer} {i : Nat}

/-- Whether the next byte needs another chunk. -/
def full (mem : Memory) (slices : List Slice) : Nat :=
  match slices.getLast? with
  | none => 1
  | some s => if mem.cap s.array - s.len = 0 then 1 else 0

/-- How many moves a call still has before it, at most. -/
def Call.left (full : Nat) : Option Call → Nat
  | none => 0
  | some (.Append data) => 2 * data.length + 1 + full
  | some (.release _ left _) => left.length + 2
  | some (.finish _) => 1

def WriteBuffer.left (mem : Memory) (b : WriteBuffer) : Nat := Call.left (full mem b.Slices) b.call

theorem full_le (mem : Memory) (slices : List Slice) : full mem slices ≤ 1 := by
  unfold full
  split
  next => exact Nat.le_refl _
  next => split <;> omega

theorem left_touched {touched : List Nat} (touch : Touched mem mem' touched) (known : ∀ s ∈ b.held, s.array < mem.length) :
    b.left mem' = b.left mem := by
  have same : full mem' b.Slices = full mem b.Slices := by
    unfold full
    split
    next => rfl
    next s last => rw [touch.caps _ (known s (List.mem_append_left _ (List.mem_of_getLast? last)))]
  rw [WriteBuffer.left,same]
  rfl

theorem grow_left {data : List UInt8} (positive : ∀ k, 0 < config.chunkSize k) (ready : Ready config mem al b)
    (call : b.call = some (.Append data)) (grown : b.grow config mem al = (mem',al',b')) : b'.left mem' = 2 * data.length + 1 := by
  obtain ⟨k,fresh,s,mem'',a',-,shape,taken⟩ := grow_taken ready
  cases shape.symm.trans grown
  have room : full mem' (b.Slices ++ [s]) = 0 := by
    have := positive k
    rw [full,List.getLast?_concat]
    dsimp only
    rw [taken.size,taken.empty,if_neg (by omega)]
  rw [WriteBuffer.left]
  dsimp only
  rw [room,call]
  rfl

/-- Each move of a call is one of those that were before it. -/
theorem go_lowers (positive : ∀ k, 0 < config.chunkSize k) (ready : Ready config mem al b) (moved : b.go config mem al = some (mem',al',b')) :
    b'.left mem' < b.left mem := by
  have quiet {found : Memory × Allocators × WriteBuffer} (eq : found = (mem',al',b')) (less : found.2.2.left found.1 < b.left mem) :
      b'.left mem' < b.left mem := by
    rw [eq] at less
    exact less
  unfold WriteBuffer.go at moved
  cases call : b.call with
  | none =>
    rw [call] at moved
    cases moved
  | some c =>
    have left : b.left mem = Call.left (full mem b.Slices) (some c) := by rw [WriteBuffer.left,call]
    rw [call] at moved
    cases c with
    | Append data =>
      have left : b.left mem = 2 * data.length + 1 + full mem b.Slices := left
      dsimp only at moved
      split at moved
      next none =>
        have one : full mem b.Slices = 1 := by rw [full,none]
        have grown := grow_left positive ready call (Option.some.inj moved)
        omega
      next s last =>
        split at moved
        next done =>
          refine quiet (Option.some.inj moved) ?_
          rw [left]
          exact Nat.lt_of_lt_of_le (Nat.succ_pos _) (Nat.le_add_right _ _)
        next some_left =>
          have positive_length := List.length_pos_iff.mpr some_left
          split at moved
          next crowded =>
            have one : full mem b.Slices = 1 := by
              rw [full,last]
              exact if_pos crowded
            have grown := grow_left positive ready call (Option.some.inj moved)
            omega
          next room =>
            refine quiet (Option.some.inj moved) ?_
            rw [left,WriteBuffer.left]
            dsimp only
            have most (mem : Memory) (slices : List Slice) := full_le mem slices
            rw [Call.left,List.length_drop]
            refine Nat.lt_of_le_of_lt (Nat.add_le_add_left (most _ _) _) ?_
            split <;> omega
    | release k chunks after =>
      cases chunks with
      | nil =>
        refine quiet (Option.some.inj moved) ?_
        rw [left]
        exact Nat.one_lt_two
      | cons s rest =>
        refine quiet (Option.some.inj moved) ?_
        rw [left]
        exact Nat.lt_succ_self _
    | finish after =>
      have idle : b'.left mem' = 0 := by
        cases after with
        | Reset =>
          cases moved
          rfl
        | Close =>
          cases moved
          rfl
        | MakeContiguous length =>
          dsimp only at moved
          split at moved
          next =>
            cases moved
            rfl
          next =>
            split at moved
            next =>
              cases moved
              rfl
            next =>
              cases moved
              rfl
      rw [idle,left]
      exact Nat.one_pos

theorem call_goes (config : Config) (mem : Memory) (al : Allocators) (busy : b.call ≠ none) : ∃ next, b.go config mem al = some next := by
  unfold WriteBuffer.go
  split
  next idle => exact absurd idle busy
  next =>
    split
    next => exact ⟨_,rfl⟩
    next =>
      split
      next => exact ⟨_,rfl⟩
      next =>
        dsimp only
        split <;> exact ⟨_,rfl⟩
  next => exact ⟨_,rfl⟩
  next => exact ⟨_,rfl⟩
  next => exact ⟨_,rfl⟩
  next => exact ⟨_,rfl⟩
  next =>
    split
    next => exact ⟨_,rfl⟩
    next => split <;> exact ⟨_,rfl⟩

/-- A step does not touch the buffer, or is a move of its call. -/
theorem step_left (positive : ∀ k, 0 < config.chunkSize k) (sound : w.Sound config) (found : w.buffers[i]? = some b)
    (taken : step config w l = some w') (none_new : ∀ op, l ≠ .call i op) :
    ∃ b', w'.buffers[i]? = some b' ∧ (if l = .go i then 1 else 0) + b'.left w'.mem ≤ b.left w.mem := by
  have known : ∀ s ∈ b.held, s.array < w.mem.length := (sound.ready found).known
  have inside := (List.getElem?_eq_some_iff.mp found).1
  cases l with
  | NewWriteBuffer =>
    cases Option.some.inj taken
    exact ⟨b,(List.getElem?_append_left inside).trans found,by simp⟩
  | NewWriteBufferMaxContiguous =>
    cases Option.some.inj taken
    exact ⟨b,(List.getElem?_append_left inside).trans found,by simp⟩
  | Dup j =>
    rw [step] at taken
    split at taken
    next => cases taken
    next =>
      split at taken
      next =>
        cases Option.some.inj taken
        refine ⟨b,(List.getElem?_append_left inside).trans found,?_⟩
        rw [left_touched (Touched.push _ _) known]
        simp
      next => cases taken
  | call j op =>
    rw [step] at taken
    split at taken
    next => cases taken
    next =>
      obtain ⟨b',started,rfl⟩ := Option.map_eq_some_iff.mp taken
      have other : j ≠ i := fun same => none_new op (same ▸ rfl)
      exact ⟨b,(List.getElem?_set_ne other).trans found,by simp⟩
  | go j =>
    rw [step] at taken
    split at taken
    next => cases taken
    next mover there =>
      obtain ⟨⟨mem',al',b'⟩,moved,rfl⟩ := Option.map_eq_some_iff.mp taken
      by_cases same : j = i
      · subst same
        cases found.symm.trans there
        have lower := go_lowers positive (sound.ready found) moved
        refine ⟨b',List.getElem?_set_self inside,?_⟩
        rw [if_pos rfl,Nat.add_comm]
        exact lower
      · obtain ⟨k,fresh,touched,a',-,went⟩ := went (sound.ready there) moved
        refine ⟨b,(List.getElem?_set_ne same).trans found,?_⟩
        rw [left_touched went.touch known,if_neg (by simpa using same)]
        omega
  | store j offset data =>
    rw [step] at taken
    split at taken
    next => cases taken
    next writer there =>
      split at taken
      next => cases taken
      next s rest slices =>
        split at taken
        next room =>
          cases Option.some.inj taken
          have touch := (went_store (sound.ready there) slices room .defaultAllocator).touch
          refine ⟨b,found,?_⟩
          rw [left_touched touch known]
          simp
        next => cases taken

/-- Whatever the other goroutines do meanwhile, a call ends after a number of moves that is known when it starts. -/
theorem calls_end {config : Config} (positive : ∀ k, 0 < config.chunkSize k) {before labels : List Label}
    (reached : Library.Runs.run (step config) .start before = some w) (went : Library.Runs.run (step config) w labels = some w')
    (found : w.buffers[i]? = some b) (none_new : ∀ op, .call i op ∉ labels) :
    ∃ b', w'.buffers[i]? = some b' ∧ labels.count (.go i) + b'.left w'.mem ≤ b.left w.mem ∧
      (b'.call = none ∨ ∃ w'', step config w' (.go i) = some w'') := by
  obtain ⟨sound,tells⟩ := run_kept (start_sound config) start_tells reached
  generalize before.foldl told [] = contents at tells
  clear reached
  induction labels generalizing w b contents with
  | nil =>
    cases Option.some.inj went
    refine ⟨b,found,by simp,?_⟩
    by_cases idle : b.call = none
    · exact .inl idle
    · obtain ⟨next,moved⟩ := call_goes config w'.mem w'.allocators idle
      have taken : step config w' (.go i) = some ⟨next.1,next.2.1,w'.buffers.set i next.2.2⟩ := by
        rw [step,found]
        dsimp only
        rw [moved]
        rfl
      exact .inr ⟨_,taken⟩
  | cons l rest ih =>
    cases taken : step config w l with
    | none => simp [Library.Runs.run,taken] at went
    | some v =>
      rw [Library.Runs.run_cons taken] at went
      obtain ⟨b',there,lower⟩ := step_left positive sound found taken fun op same => none_new op (same ▸ List.mem_cons_self)
      obtain ⟨sound,tells⟩ := step_kept sound tells taken
      obtain ⟨b'',there,lower',goes⟩ := ih went there (fun op member => none_new op (List.mem_cons_of_mem _ member)) sound _ tells
      refine ⟨b'',there,?_,goes⟩
      rw [List.count_cons]
      simp only [beq_iff_eq]
      omega

theorem calls_end_passed : ∃ w w' b, Library.Runs.run (step small) .start (passed.take 6) = some w ∧
    Library.Runs.run (step small) w [.go 0,.go 1,.go 0] = some w' ∧ w.buffers[0]? = some b ∧
    ∃ b', w'.buffers[0]? = some b' ∧ List.count (.go 0) [Label.go 0,.go 1,.go 0] + b'.left w'.mem ≤ b.left w.mem ∧
      (b'.call = none ∨ ∃ w'', step small w' (.go 0) = some w'') := by
  obtain ⟨w,w',b,reached,went,found⟩ : ∃ w w' b, Library.Runs.run (step small) .start (passed.take 6) = some w ∧
      Library.Runs.run (step small) w [.go 0,.go 1,.go 0] = some w' ∧ w.buffers[0]? = some b := ⟨_,_,_,rfl,rfl,rfl⟩
  exact ⟨w,w',b,reached,went,found,calls_end (fun _ => Nat.zero_lt_two) reached went found (by simp)⟩

end Ends

end Vbe.Gather.Chunks
