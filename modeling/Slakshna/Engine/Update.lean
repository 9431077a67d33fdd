import Slakshna.Lib.Fallible
import Slakshna.Engine.Average
import Slakshna.Engine.Similarity

/-! What one run of the engine does to the base model, in exact arithmetic but for the types that
weights are held in. A run sends the largest entries of its delta, adds up what came from the
others, and moves the base model in pretraining. -/
namespace Slakshna.Engine
open Checkpoint FileTree

section Run
variable {K L S : Type}

/-- What the engine relies on torch for. Operations on tensors of different shapes may raise. -/
structure Torch (K : Type) [Field K] [LinearOrder K] where
  sub : Tensor K → Tensor K → Option (Tensor K)
  iadd : Tensor K → Tensor K → Option (Tensor K)
  half : K → K
  bfloat16 : K → K
  topk : TopIndices K
  cosine : List K → List K → Trust.Similarity K

structure EngineConfig where
  myId : String
  mode : TrainingMode
  ckptDir : List Name

structure EngineState (K : Type) where
  alpha : Trust.Alpha K
  base : BaseModel (Tensor K)

/-- What a run finds: the neighbours it is given, the checkpoints and adapters that its training
left, and the deltas of others. -/
structure EngineInput (K L : Type) where
  neighbors : List String
  draw : String → K
  disk : Checkpoint.Disk (Tensor K) L
  iter : IterOrder Name
  walk : List (WalkedFile (Tensor K))
  received : String → Option (StateDict (Tensor K))

def zeros [Field K] : Tensor K := ⟨[1], fun _ => 0⟩

def Tensor.cast (f : K → K) (t : Tensor K) : Tensor K := t.reshape (fun i => f (t.entries i))

/-- `sd[k] += update` where the model has the key. -/
def applyUpdate (cast : S → S) (iadd : S → S → Option S) (sd : StateDict S) (k : Name)
    (update : S) : Option (StateDict S) :=
  match sd.lookup k with
  | some b => (iadd b (cast update)).map (sd.insert k)
  | none => some sd

def applyUpdates (cast : S → S) (iadd : S → S → Option S) (agg sd : StateDict S) :
    Option (StateDict S) :=
  agg.entries.foldlM (fun sd e => applyUpdate cast iadd sd e.1 e.2) sd

/-- `save_pretrained` writes safetensors, and leaves other files. -/
def BaseModel.save (base : BaseModel S) (sd : StateDict S) : BaseModel S := ⟨[sd], base.bins⟩

def BaseModel.isMissing (base : BaseModel S) : Bool := base.safetensors.isEmpty && base.bins.isEmpty

/-- `from_pretrained` brings the weights to the type of the model, and raises without any file. -/
def newBase (mode : TrainingMode) (cast : S → S) (iadd : S → S → Option S) (agg : StateDict S)
    (base : BaseModel S) : Option (BaseModel S) :=
  match mode with
  | .finetuning => some base
  | .pretraining =>
    if base.isMissing then none
    else (applyUpdates cast iadd agg (HashMap.mapValues cast base.load)).map base.save

variable [Field K] [LinearOrder K] [IsStrictOrderedRing K] [FloorSemiring K]

/-- What a run sends, and what it leaves; nothing where it raises. -/
def engineRun (torch : Torch K) (exp : K → K) (cfg : EngineConfig) (s : EngineState K)
    (input : EngineInput K L) : Option (StateDict (Tensor K) × EngineState K) := do
  let own ← extractDelta cfg.mode torch.sub zeros s.base input.walk input.iter input.disk
    cfg.ckptDir
  let sent ← (sparseDelta torch.topk torch.half own).toOption
  let deltas : Deltas K := ⟨own, input.received⟩
  let agg := NodeState.deltaAgg exp ⟨cfg.myId, s.alpha, input.draw⟩ input.neighbors deltas
  let base ← newBase cfg.mode (Tensor.cast torch.bfloat16) torch.iadd agg s.base
  let round := roundOf torch.cosine input.draw input.neighbors deltas
  return (sent, ⟨Trust.round exp cfg.myId s.alpha round, base⟩)

structure Ran (torch : Torch K) (exp : K → K) (cfg : EngineConfig) (s : EngineState K)
    (input : EngineInput K L) (own sent : StateDict (Tensor K)) (s' : EngineState K) : Prop where
  extracted : extractDelta cfg.mode torch.sub zeros s.base input.walk input.iter input.disk
    cfg.ckptDir = some own
  sparse : sparseDelta torch.topk torch.half own = .ok sent
  base : newBase cfg.mode (Tensor.cast torch.bfloat16) torch.iadd
    (NodeState.deltaAgg exp ⟨cfg.myId, s.alpha, input.draw⟩ input.neighbors
      ⟨own, input.received⟩) s.base = some s'.base
  alpha : s'.alpha = Trust.round exp cfg.myId s.alpha
    (roundOf torch.cosine input.draw input.neighbors ⟨own, input.received⟩)

omit [IsStrictOrderedRing K] in
theorem engineRun_eq_some_iff {torch : Torch K} {exp : K → K} {cfg : EngineConfig}
    {s s' : EngineState K} {input : EngineInput K L} {sent : StateDict (Tensor K)} :
    engineRun torch exp cfg s input = some (sent, s') ↔
      ∃ own, Ran torch exp cfg s input own sent s' := by
  constructor
  · intro h
    obtain ⟨own, hown, h⟩ := Option.bind_eq_some_iff.1 h
    obtain ⟨sent', hsent, h⟩ := Option.bind_eq_some_iff.1 h
    obtain ⟨base, hbase, h⟩ := Option.bind_eq_some_iff.1 h
    obtain ⟨rfl, rfl⟩ := Prod.mk.inj (Option.some.inj h)
    refine ⟨own, hown, ?_, hbase, rfl⟩
    cases hsparse : sparseDelta torch.topk torch.half own with
    | error e => simp [hsparse, Except.toOption] at hsent
    | ok sent => simpa [hsparse, Except.toOption] using hsent
  · rintro ⟨own, hown, hsent, hbase, halpha⟩
    obtain ⟨alpha, base⟩ := s'
    obtain rfl : alpha = _ := halpha
    simp [engineRun, hown, hsent, hbase, Except.toOption]

end Run

section Bounds
variable {K L : Type} [Field K] [LinearOrder K] [IsStrictOrderedRing K] {D : K}

def Tensor.Small (D : K) (t : Tensor K) : Prop := ∀ i, |t.entry i| ≤ D

structure Tensor.Near (D : K) (b v : Tensor K) : Prop where
  shape : v.shape = b.shape
  entry : ∀ i, |v.entry i - b.entry i| ≤ D

def SmallDelta (D : K) (sd : StateDict (Tensor K)) : Prop :=
  ∀ k v, sd.lookup k = some v → v.Small D

def NearDict (D : K) (sd sd' : StateDict (Tensor K)) : Prop :=
  ∀ k b, sd.lookup k = some b → ∃ v, sd'.lookup k = some v ∧ b.Near D v

/-- A cast to a type of number takes the nearest number that the type holds. It holds `D` and `-D`. -/
structure Rounds (D : K) (cast : K → K) : Prop where
  idem : ∀ x, cast (cast x) = cast x
  nearest : ∀ x y, cast y = y → |cast x - x| ≤ |y - x|
  holds : cast D = D
  holds_neg : cast (-D) = -D

theorem Rounds.bounded {cast : K → K} (h : Rounds D cast) {x : K} (hx : |x| ≤ D) : |cast x| ≤ D := by
  obtain ⟨hlow, hhigh⟩ := abs_le.1 hx
  have habove := h.nearest x D h.holds
  have hbelow := h.nearest x (-D) h.holds_neg
  rw [abs_of_nonneg (sub_nonneg.2 hhigh)] at habove
  rw [abs_sub_comm (-D), abs_of_nonneg (sub_nonneg.2 hlow)] at hbelow
  have hup := (le_abs_self _).trans habove
  have hdown := (neg_le_abs _).trans hbelow
  exact abs_le.2 ⟨by linarith, by linarith⟩

/-- What is known of torch. A difference is rounded to the type of its tensors. The sum in place adds
some entry of the update to each entry, and takes the nearest number of the type of the model. -/
structure Torch.Lawful (torch : Torch K) (D : K) : Prop where
  sub : ∀ v b u, v.shape = b.shape → torch.sub v b = some u →
    ∃ cast, Rounds D cast ∧ ∀ i < u.numel, u.entry i = cast (v.entry i - b.entry i)
  half : Rounds D torch.half
  bfloat16 : Rounds D torch.bfloat16
  iadd : ∀ b u t, torch.iadd b u = some t → t.shape = b.shape ∧
    ∀ i < b.numel, ∃ j, t.entry i = torch.bfloat16 (b.entry i + u.entry j)

/-- What a training leaves: in pretraining the weights near to those of the base model, otherwise
small ones. -/
def TrainsWithin (D : K) (mode : TrainingMode) (base : BaseModel (Tensor K))
    (walk : List (WalkedFile (Tensor K))) : Prop :=
  ∀ adapter, getAdapterPath walk = some adapter → ∀ k v, adapter.stateDict.lookup k = some v →
    match mode with
    | .finetuning => v.Small D
    | .pretraining => ∀ b, base.load.lookup k = some b → b.Near D v

theorem Tensor.Near.refl (hD : 0 ≤ D) (b : Tensor K) : b.Near D b :=
  ⟨rfl, fun i => by rwa [sub_self, abs_zero]⟩

theorem Tensor.Near.trans {E : K} {b v w : Tensor K} (h : b.Near D v) (h' : v.Near E w) :
    b.Near (D + E) w := by
  refine ⟨h'.shape.trans h.shape, fun i => ?_⟩
  calc |w.entry i - b.entry i|
      ≤ |w.entry i - v.entry i| + |v.entry i - b.entry i| := abs_sub_le _ _ _
    _ ≤ E + D := add_le_add (h'.entry i) (h.entry i)
    _ = D + E := add_comm _ _

theorem nearDict_refl (hD : 0 ≤ D) (sd : StateDict (Tensor K)) : NearDict D sd sd :=
  fun _ b hb => ⟨b, hb, Tensor.Near.refl hD b⟩

theorem NearDict.trans {E : K} {a b c : StateDict (Tensor K)} (h : NearDict D a b)
    (h' : NearDict E b c) : NearDict (D + E) a c := by
  intro k x hx
  obtain ⟨y, hy, hxy⟩ := h k x hx
  obtain ⟨z, hz, hyz⟩ := h' k y hy
  exact ⟨z, hz, hxy.trans hyz⟩

omit [IsStrictOrderedRing K] in
theorem smallDelta_empty (D : K) : SmallDelta D ∅ := by
  intro k v hv
  simp at hv

omit [IsStrictOrderedRing K] in
theorem SmallDelta.insert {sd : StateDict (Tensor K)} (h : SmallDelta D sd) {k : Name}
    {v : Tensor K} (hv : v.Small D) : SmallDelta D (sd.insert k v) := by
  intro j u hu
  by_cases hjk : j = k
  · subst hjk
    rw [AList.lookup_insert] at hu
    exact Option.some.inj hu ▸ hv
  · rw [AList.lookup_insert_ne hjk] at hu
    exact h j u hu

theorem Torch.Lawful.small_sub {torch : Torch K} (htorch : torch.Lawful D) (hD : 0 ≤ D)
    {v b u : Tensor K} (hnear : b.Near D v) (h : torch.sub v b = some u) : u.Small D := by
  obtain ⟨cast, hcast, hentry⟩ := htorch.sub v b u hnear.shape h
  intro i
  by_cases hi : i < u.numel
  · rw [hentry i hi]
    exact hcast.bounded (hnear.entry i)
  · rwa [Tensor.entry_of_le (Nat.not_lt.1 hi), abs_zero]

theorem smallDelta_difference (hD : 0 ≤ D) {torch : Torch K} (htorch : torch.Lawful D)
    {sd base own : StateDict (Tensor K)}
    (hnear : ∀ k v b, sd.lookup k = some v → base.lookup k = some b → b.Near D v)
    (h : difference torch.sub sd base = some own) : SmallDelta D own := by
  refine Fallible.foldlM_some (fun delta e he delta' hdelta hstep => ?_) (smallDelta_empty D) h
  have hentry : sd.lookup e.1 = some e.2 := (HashMap.mem_entries_iff sd e.1 e.2).1 he
  cases hbase : base.lookup e.1 with
  | none =>
    simp only [hbase] at hstep
    exact Option.some.inj hstep ▸ hdelta
  | some b =>
    simp only [hbase] at hstep
    obtain ⟨u, hu, rfl⟩ := Option.map_eq_some_iff.1 hstep
    exact hdelta.insert (htorch.small_sub hD (hnear e.1 e.2 b hentry hbase) hu)

theorem smallDelta_extractDelta (hD : 0 ≤ D) {torch : Torch K} (htorch : torch.Lawful D)
    {mode : TrainingMode} {base : BaseModel (Tensor K)} {walk : List (WalkedFile (Tensor K))}
    (htrain : TrainsWithin D mode base walk) {iter : IterOrder Name}
    {t : Checkpoint.Disk (Tensor K) L} {ckptDir : List Name} {own : StateDict (Tensor K)}
    (h : extractDelta mode torch.sub zeros base walk iter t ckptDir = some own) :
    SmallDelta D own := by
  cases hlast : (candidatesIn iter t ckptDir).getLast? with
  | some newest =>
    rw [extractDelta_completed _ _ _ _ _ (getLast_candidatesIn_spec hlast).1] at h
    exact Option.some.inj h ▸ smallDelta_empty D
  | none =>
    rw [extractDelta] at h
    split at h
    · cases h
    · dsimp only at h
      rw [hlast] at h
      cases hadapter : getAdapterPath walk with
      | none =>
        simp only [hadapter] at h
        rw [← Option.some.inj h]
        refine (smallDelta_empty D).insert (fun i => ?_)
        rw [Tensor.entry]
        split <;> simpa [zeros] using hD
      | some adapter =>
        simp only [hadapter] at h
        cases mode with
        | finetuning => exact Option.some.inj h ▸ htrain adapter hadapter
        | pretraining =>
          exact smallDelta_difference hD htorch
            (fun k v b hv hb => htrain adapter hadapter k v hv b hb) h

section Sent
variable [FloorSemiring K]

omit [FloorSemiring K] in
theorem Tensor.Small.reshape {t : Tensor K} (hD : 0 ≤ D) (ht : t.Small D) {f : Fin t.numel → K}
    (hf : ∀ i, |t.entries i| ≤ D → |f i| ≤ D) : (t.reshape f).Small D := by
  intro i
  by_cases hi : i < t.numel
  · have hnew : (t.reshape f).entry i = f ⟨i, hi⟩ := Tensor.entry_of_lt (t := t.reshape f) hi
    rw [hnew]
    exact hf ⟨i, hi⟩ (Tensor.entry_of_lt hi ▸ ht i)
  · have hnew : (t.reshape f).entry i = 0 :=
      Tensor.entry_of_le (t := t.reshape f) (Nat.not_lt.1 hi)
    rwa [hnew, abs_zero]

theorem small_sparsifyTensor (hD : 0 ≤ D) {topk : TopIndices K} {t u : Tensor K} {sparsity : K}
    (ht : t.Small D) (h : sparsifyTensor topk t sparsity = .ok u) : u.Small D := by
  rw [sparsifyTensor] at h
  split at h
  · exact Except.ok.inj h ▸ ht
  · dsimp only at h
    split at h
    · rw [← Except.ok.inj h]
      refine ht.reshape hD (fun i hi => ?_)
      split
      · rwa [mul_one]
      · rwa [mul_zero, abs_zero]
    · cases h

theorem smallDelta_sparseDelta (hD : 0 ≤ D) {torch : Torch K} (htorch : torch.Lawful D)
    {own sent : StateDict (Tensor K)} (hown : SmallDelta D own)
    (h : sparseDelta torch.topk torch.half own = .ok sent) : SmallDelta D sent := by
  refine Fallible.foldlM_ok (fun sd e he sd' hsd hstep => ?_) (smallDelta_empty D) h
  obtain ⟨v, hv, hstep⟩ := (Fallible.bind_ok _ _ _).1 hstep
  obtain rfl : _ = sd' := Except.ok.inj hstep
  have hentry : own.lookup e.1 = some e.2 := (HashMap.mem_entries_iff own e.1 e.2).1 he
  have hsmall : v.Small D := small_sparsifyTensor hD (hown e.1 e.2 hentry) hv
  exact hsd.insert (hsmall.reshape hD (fun _ hi => htorch.half.bounded hi))

end Sent

theorem smallDelta_deltaAgg (hD : 0 ≤ D) {exp : K → K} (hexp : ∀ x, 0 < exp x) {s : NodeState K}
    {d : Deltas K} {neighbors : List String} (hset : (s.myId :: neighbors).Nodup)
    (hown : SmallDelta D d.own) (hreceived : ∀ j sd, d.received j = some sd → SmallDelta D sd) :
    SmallDelta D (s.deltaAgg exp neighbors d) := by
  intro k t ht i
  have hpart : ∀ j ∈ s.myId :: neighbors, |part t.shape i (d.held s.myId k j)| ≤ D := by
    intro j _
    cases hheld : d.held s.myId k j with
    | none => simpa [part] using hD
    | some v =>
      obtain ⟨sd, hsd, hv⟩ := Option.bind_eq_some_iff.1 hheld
      have hsmall : SmallDelta D sd := d.delta?_of_forall s.myId hown hreceived hsd
      rw [part, Option.elim_some, share]
      split
      · exact hsmall k v hv i
      · rwa [abs_zero]
  rw [entry_deltaAgg hset ht]
  calc |Average.weighted (s.weight exp neighbors)
        (fun j => part t.shape i (d.held s.myId k j)) (s.myId :: neighbors)|
      ≤ ((s.myId :: neighbors).map (s.weight exp neighbors)).sum * D :=
        Average.abs_weighted_le (weight_pos hexp) hpart
    _ = D := by rw [sum_weight hexp, one_mul]

end Bounds

section Base
variable {S : Type}

theorem lookup_load_save (base : BaseModel S) (sd : StateDict S) (k : Name) :
    (base.save sd).load.lookup k = sd.lookup k := by
  have hfold := HashMap.lookup_foldl_upsert sd (fun v => v) (fun v _ => v) ∅ k
  cases hk : sd.lookup k with
  | none =>
    rw [hk] at hfold
    exact hfold
  | some v =>
    rw [hk] at hfold
    exact hfold

def UpdatedBy (cast : S → S) (iadd : S → S → Option S) : Option S → Option S → Option S → Prop
  | some b, some u, v => ∃ t, iadd b (cast u) = some t ∧ v = some t
  | b, _, v => v = b

section Apply
variable {cast : S → S} {iadd : S → S → Option S}

theorem updatedBy_none (b : Option S) : UpdatedBy cast iadd b none b := by
  cases b <;> rfl

theorem lookup_applyUpdate {sd sd' : StateDict S} {j : Name} {u : S}
    (h : applyUpdate cast iadd sd j u = some sd') (k : Name) :
    UpdatedBy cast iadd (sd.lookup k) (if k = j then some u else none) (sd'.lookup k) := by
  rw [applyUpdate] at h
  cases hj : sd.lookup j with
  | none =>
    rw [hj] at h
    obtain rfl := Option.some.inj h
    split
    · next hk => rw [hk, hj]; rfl
    · exact updatedBy_none _
  | some b =>
    rw [hj] at h
    obtain ⟨t, ht, rfl⟩ := Option.map_eq_some_iff.1 h
    split
    · next hk =>
      rw [hk, hj, AList.lookup_insert]
      exact ⟨t, ht, rfl⟩
    · next hk =>
      rw [AList.lookup_insert_ne hk]
      exact updatedBy_none _

theorem lookup_applyUpdates {agg sd sd' : StateDict S}
    (h : applyUpdates cast iadd agg sd = some sd') (k : Name) :
    UpdatedBy cast iadd (sd.lookup k) (agg.lookup k) (sd'.lookup k) := by
  have hfold : ∀ (l : List (Sigma fun _ : Name => S)) (sd sd' : StateDict S), l.NodupKeys →
      l.foldlM (fun sd e => applyUpdate cast iadd sd e.1 e.2) sd = some sd' →
      UpdatedBy cast iadd (sd.lookup k) (l.dlookup k) (sd'.lookup k) := by
    intro l
    induction l with
    | nil =>
      intro sd sd' _ h
      obtain rfl := Option.some.inj h
      exact updatedBy_none _
    | cons e l ih =>
      intro sd sd' hl h
      obtain ⟨he, hrest⟩ := List.nodupKeys_cons.1 hl
      rw [List.foldlM_cons] at h
      obtain ⟨next, hnext, h⟩ := Option.bind_eq_some_iff.1 h
      have hfirst := lookup_applyUpdate hnext k
      have hlater := ih next sd' hrest h
      by_cases hk : k = e.1
      · -- The rest has no update for this key.
        subst hk
        rw [List.dlookup_eq_none.2 he] at hlater
        have hsame : sd'.lookup e.1 = next.lookup e.1 := by
          cases hl : next.lookup e.1 <;> simpa [hl, UpdatedBy] using hlater
        rw [List.dlookup_cons_eq, hsame]
        simpa using hfirst
      · rw [if_neg hk] at hfirst
        have hsame : next.lookup k = sd.lookup k := by
          cases hl : sd.lookup k <;> simpa [hl, UpdatedBy] using hfirst
        rw [List.dlookup_cons_ne _ _ hk, ← hsame]
        exact hlater
  exact hfold agg.entries sd sd' agg.nodupKeys h

theorem lookup_newBase {agg : StateDict S} {base base' : BaseModel S}
    (h : newBase .pretraining cast iadd agg base = some base') (k : Name) :
    UpdatedBy cast iadd ((base.load.lookup k).map cast) (agg.lookup k)
      (base'.load.lookup k) := by
  rw [newBase] at h
  split at h
  · cases h
  · obtain ⟨sd, hsd, rfl⟩ := Option.map_eq_some_iff.1 h
    rw [lookup_load_save, ← HashMap.lookup_mapValues]
    exact lookup_applyUpdates hsd k

end Apply

end Base

section Update
variable {K : Type} [Field K] [LinearOrder K] [IsStrictOrderedRing K] {D : K} {torch : Torch K}

def Tensor.Stored (f : K → K) (t : Tensor K) : Prop := ∀ i < t.numel, f (t.entry i) = t.entry i

def BaseModel.Stored (f : K → K) (base : BaseModel (Tensor K)) : Prop :=
  ∀ k b, base.load.lookup k = some b → b.Stored f

omit [LinearOrder K] [IsStrictOrderedRing K] in
theorem Tensor.entry_cast {f : K → K} {t : Tensor K} {i : ℕ} (hi : i < t.numel) :
    (t.cast f).entry i = f (t.entry i) := by
  rw [Tensor.entry_of_lt hi]
  exact Tensor.entry_of_lt (t := t.cast f) hi

omit [LinearOrder K] [IsStrictOrderedRing K] in
theorem Tensor.Stored.cast_eq {f : K → K} {t : Tensor K} (h : t.Stored f) : t.cast f = t := by
  refine Tensor.ext_entry rfl (fun i => ?_)
  by_cases hi : i < t.numel
  · rw [Tensor.entry_cast hi, h i hi]
  · have hlen : t.numel ≤ i := Nat.not_lt.1 hi
    rw [Tensor.entry_of_le hlen, Tensor.entry_of_le (t := t.cast f) hlen]

theorem Torch.Lawful.iadd_near (htorch : torch.Lawful D) (hD : 0 ≤ D) {b u t : Tensor K}
    (hb : b.Stored torch.bfloat16) (hu : u.Small D) (h : torch.iadd b u = some t) :
    b.Near (2 * D) t ∧ t.Stored torch.bfloat16 := by
  obtain ⟨hshape, hentry⟩ := htorch.iadd b u t h
  have hnumel : t.numel = b.numel := congrArg List.prod hshape
  constructor
  · refine ⟨hshape, fun i => ?_⟩
    by_cases hi : i < b.numel
    · obtain ⟨j, hj⟩ := hentry i hi
      have hround := htorch.bfloat16.nearest (b.entry i + u.entry j) (b.entry i) (hb i hi)
      have hself : b.entry i - (b.entry i + u.entry j) = -u.entry j := by ring
      rw [hself, abs_neg, ← hj] at hround
      have hsplit : t.entry i - b.entry i =
          (t.entry i - (b.entry i + u.entry j)) + u.entry j := by ring
      calc |t.entry i - b.entry i|
          ≤ |t.entry i - (b.entry i + u.entry j)| + |u.entry j| := hsplit ▸ abs_add_le _ _
        _ ≤ D + D := add_le_add (hround.trans (hu j)) (hu j)
        _ = 2 * D := (two_mul D).symm
    · have hlen : b.numel ≤ i := Nat.not_lt.1 hi
      rw [Tensor.entry_of_le hlen, Tensor.entry_of_le (hnumel.trans_le hlen), sub_zero, abs_zero]
      exact mul_nonneg zero_le_two hD
  · intro i hi
    obtain ⟨j, hj⟩ := hentry i (hnumel ▸ hi)
    rw [hj, htorch.bfloat16.idem]

theorem UpdatedBy.near (htorch : torch.Lawful D) (hD : 0 ≤ D) {b : Tensor K}
    {u v : Option (Tensor K)} (hb : b.Stored torch.bfloat16) (hu : ∀ t, u = some t → t.Small D)
    (h : UpdatedBy (Tensor.cast torch.bfloat16) torch.iadd (some b) u v) :
    ∃ t, v = some t ∧ b.Near (2 * D) t ∧ t.Stored torch.bfloat16 := by
  cases u with
  | none => exact ⟨b, h, Tensor.Near.refl (mul_nonneg zero_le_two hD) b, hb⟩
  | some u =>
    obtain ⟨t, ht, rfl⟩ := h
    have hsmall : (u.cast torch.bfloat16).Small D :=
      (hu u rfl).reshape hD (fun _ hi => htorch.bfloat16.bounded hi)
    exact ⟨t, rfl, htorch.iadd_near hD hb hsmall ht⟩

theorem newBase_near (htorch : torch.Lawful D) (hD : 0 ≤ D) {mode : TrainingMode}
    {agg : StateDict (Tensor K)} (hagg : SmallDelta D agg) {base base' : BaseModel (Tensor K)}
    (hbase : base.Stored torch.bfloat16)
    (h : newBase mode (Tensor.cast torch.bfloat16) torch.iadd agg base = some base') :
    NearDict (2 * D) base.load base'.load ∧ base'.Stored torch.bfloat16 := by
  cases mode with
  | finetuning =>
    obtain rfl : base = base' := Option.some.inj h
    exact ⟨nearDict_refl (mul_nonneg zero_le_two hD) _, hbase⟩
  | pretraining =>
    have hkey : ∀ k b, base.load.lookup k = some b →
        ∃ t, base'.load.lookup k = some t ∧ b.Near (2 * D) t ∧ t.Stored torch.bfloat16 := by
      intro k b hb
      have hupdated := lookup_newBase h k
      rw [hb, Option.map_some, (hbase k b hb).cast_eq] at hupdated
      exact hupdated.near htorch hD (hbase k b hb) (hagg k)
    constructor
    · intro k b hb
      obtain ⟨t, ht, hnear, -⟩ := hkey k b hb
      exact ⟨t, ht, hnear⟩
    · intro k v hv
      cases hb : base.load.lookup k with
      | none =>
        have hupdated := lookup_newBase h k
        rw [hb, hv] at hupdated
        cases hupdated
      | some b =>
        obtain ⟨t, ht, -, hstored⟩ := hkey k b hb
        exact Option.some.inj (ht.symm.trans hv) ▸ hstored

end Update

section Empty
variable {S L : Type}

theorem newBase_empty (mode : TrainingMode) (cast : S → S) (iadd : S → S → Option S)
    {base : BaseModel S} (hstored : ∀ k b, base.load.lookup k = some b → cast b = b)
    (hpresent : mode = .pretraining → base.isMissing = false) :
    ∃ base', newBase mode cast iadd ∅ base = some base' ∧
      ∀ k, base'.load.lookup k = base.load.lookup k := by
  cases mode with
  | finetuning => exact ⟨base, rfl, fun _ => rfl⟩
  | pretraining =>
    refine ⟨base.save (HashMap.mapValues cast base.load), ?_, fun k => ?_⟩
    · rw [newBase, hpresent rfl]
      rfl
    · rw [lookup_load_save, HashMap.lookup_mapValues]
      cases hk : base.load.lookup k with
      | none => rfl
      | some b => exact congrArg some (hstored k b hk)

section Aggregate
variable {K : Type} [Field K]

theorem aggregate_empty (w : HashMap String K) {available : List (String × StateDict (Tensor K))}
    (h : ∀ e ∈ available, e.2 = ∅) : aggregate w available = ∅ := by
  rw [aggregate]
  induction available with
  | nil => rfl
  | cons e available ih =>
    obtain ⟨he, hrest⟩ := List.forall_mem_cons.1 h
    rw [List.foldl_cons, he]
    exact ih hrest

theorem deltaAgg_empty (exp : K → K) {s : NodeState K} {neighbors : List String}
    {received : String → Option (StateDict (Tensor K))} (hset : (s.myId :: neighbors).Nodup)
    (h : ∀ j sd, received j = some sd → sd = ∅) :
    s.deltaAgg exp neighbors ⟨∅, received⟩ = ∅ := by
  apply aggregate_empty
  intro e he
  rw [availableDeltas_eq hset] at he
  obtain ⟨j, -, hj⟩ := List.mem_filterMap.1 he
  obtain ⟨sd, hsd, rfl⟩ := Option.map_eq_some_iff.1 hj
  exact Deltas.delta?_of_forall _ s.myId (P := fun sd => sd = ∅) rfl h hsd

variable [LinearOrder K]

theorem alphaOf_round_of_empty (exp : K → K) (cosine : List K → List K → Trust.Similarity K)
    {draw : String → K} {myId : String} {neighbors : List String}
    (hset : (myId :: neighbors).Nodup) (received : String → Option (StateDict (Tensor K)))
    {alpha : Trust.Alpha K} {j : String} (hj : j ∈ alpha) :
    Trust.alphaOf (Trust.round exp myId alpha (roundOf cosine draw neighbors ⟨∅, received⟩)) j =
      Trust.alphaOf alpha j * if j ∈ myId :: neighbors then 98 / 100 else 1 := by
  have hzero : ∀ i, Trust.improvement myId (roundOf cosine draw neighbors ⟨∅, received⟩) i = 0 := by
    intro i
    have hrecorded : ∀ sd, recorded (fun a b => (cosine a b).val) myId ∅ i sd = 0 :=
      fun sd => if_neg (not_not.2 rfl)
    rw [Trust.improvement, peerImprovement?_roundOf]
    split
    · cases (Deltas.delta? ⟨∅, received⟩ myId i) with
      | none => rfl
      | some sd => exact hrecorded sd
    · rfl
  have hnodes : (Trust.allNodes myId (roundOf cosine draw neighbors ⟨∅, received⟩)).Nodup :=
    (List.mergeSort_perm _ _).nodup_iff.2 hset
  have hmem : j ∈ Trust.allNodes myId (roundOf cosine draw neighbors ⟨∅, received⟩) ↔
      j ∈ myId :: neighbors := List.mem_mergeSort
  have hinit : Trust.alphaOf (Trust.initialise draw
      (Trust.allNodes myId (roundOf cosine draw neighbors ⟨∅, received⟩)) alpha) j =
        Trust.alphaOf alpha j := by
    obtain ⟨a, ha⟩ := Option.isSome_iff_exists.1 (AList.lookup_isSome.2 hj)
    rw [Trust.alphaOf, Trust.lookup_initialise, ha, Trust.alphaOf, ha]
    rfl
  rw [Trust.round, Trust.alphaOf_trustUpdate _ _ hnodes, hzero, Trust.updated]
  simp only [hmem]
  split
  · rw [mul_zero, zero_mul, zero_mul, add_zero]
    exact congrArg (· * _) hinit
  · rw [mul_one]
    exact hinit

end Aggregate

section Fading
variable {K : Type} [Field K]

structure Fades (c : String → K) (s s' : EngineState K) : Prop where
  base : ∀ k, s'.base.load.lookup k = s.base.load.lookup k
  alpha : ∀ j ∈ s.alpha, j ∈ s'.alpha ∧ Trust.alphaOf s'.alpha j = Trust.alphaOf s.alpha j * c j

theorem Fades.refl (s : EngineState K) : Fades (fun _ => 1) s s :=
  ⟨fun _ => rfl, fun _ hj => ⟨hj, (mul_one _).symm⟩⟩

theorem Fades.trans {c c' : String → K} {s s' s'' : EngineState K} (h : Fades c s s')
    (h' : Fades c' s' s'') : Fades (fun j => c j * c' j) s s'' := by
  refine ⟨fun k => (h'.base k).trans (h.base k), fun j hj => ?_⟩
  obtain ⟨hj', halpha⟩ := h.alpha j hj
  obtain ⟨hj'', halpha'⟩ := h'.alpha j hj'
  exact ⟨hj'', by rw [halpha', halpha, mul_assoc]⟩

variable [LinearOrder K] [IsStrictOrderedRing K] [FloorSemiring K]

omit [IsStrictOrderedRing K] in
theorem engineRun_completed (torch : Torch K) (exp : K → K) {cfg : EngineConfig}
    {s : EngineState K} {input : EngineInput K L} {name : Name}
    (hset : (cfg.myId :: input.neighbors).Nodup)
    (hcompleted : CompletedIn input.disk cfg.ckptDir name)
    (hstored : ∀ k b, s.base.load.lookup k = some b → b.cast torch.bfloat16 = b)
    (hpresent : cfg.mode = .pretraining → s.base.isMissing = false)
    (hreceived : ∀ j sd, input.received j = some sd → sd = ∅) :
    ∃ s', engineRun torch exp cfg s input = some (∅, s') ∧
      Fades (fun j => if j ∈ cfg.myId :: input.neighbors then 98 / 100 else 1) s s' := by
  obtain ⟨base, hbase, hload⟩ := newBase_empty cfg.mode (Tensor.cast torch.bfloat16) torch.iadd
    hstored hpresent
  rw [← deltaAgg_empty exp (s := ⟨cfg.myId, s.alpha, input.draw⟩) hset hreceived] at hbase
  refine ⟨⟨_, base⟩, engineRun_eq_some_iff.2 ⟨∅, extractDelta_completed _ _ _ _ _ hcompleted _, rfl,
    hbase, rfl⟩, hload, fun j hj => ⟨?_, ?_⟩⟩
  · exact (Trust.mem_round _ _ _ _ _).2 (.inr hj)
  · exact alphaOf_round_of_empty exp torch.cosine hset input.received hj

end Fading

end Empty

end Slakshna.Engine
