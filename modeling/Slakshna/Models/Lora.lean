import Mathlib.Data.Rat.Init
import Slakshna.Models.Introspect

/-! The parameters that are trained under LoRA. What `get_peft_model` makes of a model is the
parameter `peft`; it puts the model below `base_model.model`. -/
namespace Slakshna.Lora
open NamedTree Introspect

structure Param where
  name : List Char
  requiresGrad : Bool
  dtype : ℕ
  deriving DecidableEq

inductive Targets where
  | text (s : List Char)
  | list (names : List (List Char))
  deriving DecidableEq

structure LoraConfig where
  r : ℕ
  alpha : ℕ
  dropout : ℚ
  targetModules : Targets
  includeExperts : Bool
  modulesToSave : List (List Char)
  freezeRouter : Bool
  strategy : List Char

structure PeftConfig where
  r : ℕ
  loraAlpha : ℕ
  loraDropout : ℚ
  targetModules : Option (List (List Char))
  modulesToSave : List (List Char)

def findExpertLinearNames (model : Model) (profile : ModelProfile) : List (List Char) :=
  match profile.expertModules with
  | [] => []
  | p :: _ =>
    match model.entries.find? (fun m => decide (m.path = p)) with
    | none => []
    | some sample =>
      let linears := (namedModules sample).filter (fun m => m.value.isLinear)
      Lowest.sortBy (fun name => name) (linears.map (fun m => shortName (dotted m.path))).dedup

def isAuto (configured : Targets) : Bool :=
  decide (configured = .list ["auto".toList]) || decide (configured = .text "auto".toList)

def resolveTargets (model : Model) (cfg : LoraConfig) (profile : ModelProfile) :
    Option (List (List Char)) :=
  let targets :=
    if isAuto cfg.targetModules then
      if profile.loraTargets = [] then none else some profile.loraTargets
    else match cfg.targetModules with
      | .list names => some names
      | .text s => some (s.map (fun c => [c]))
  if profile.isMoe && cfg.includeExperts then
    match targets with
    | some (first :: others) =>
      if cfg.targetModules = .list ["auto".toList] then targets
      else some ((findExpertLinearNames model profile).foldl
        (fun names n => if names.contains n then names else names ++ [n]) (first :: others))
    | _ => targets
  else targets

/-- Under FSDP a shard group takes one dtype only. -/
def castTrainable (dtype : ℕ) (p : Param) : Param :=
  if p.requiresGrad then { p with dtype := dtype } else p

def routerKw : List (List Char) :=
  ["gate".toList, "router".toList, "switch".toList, "gating".toList]

def isRouterName (lower : List Char → List Char) (profile : ModelProfile) (name : List Char) : Bool :=
  profile.routerModuleNames.any (fun r => decide (r <:+: name)) ||
    routerKw.any (fun kw => decide (kw <:+: lower name))

def freeze (p : Param) : Param := { p with requiresGrad := false }

def freezeRouterWeights (lower : List Char → List Char) (profile : ModelProfile)
    (params : List Param) : List Param :=
  params.map (fun p => if isRouterName lower profile p.name && p.requiresGrad then freeze p else p)

section Apply
variable (lower : List Char → List Char) (peft : PeftConfig → Model → List Param) (model : Model)
  (cfg : LoraConfig) (profile : ModelProfile)

def loraParams : List Param :=
  let params := peft ⟨cfg.r, cfg.alpha, cfg.dropout, resolveTargets model cfg profile,
    cfg.modulesToSave⟩ model
  if lower cfg.strategy = "fsdp".toList then params.map (castTrainable profile.modelDtype)
  else params

def applyLora : List Param :=
  let params := loraParams lower peft model cfg profile
  if profile.isMoe && cfg.freezeRouter then freezeRouterWeights lower profile params else params

def BelongsTo (module : List Char) (p : Param) : Prop :=
  "base_model.model.".toList ++ module ++ ['.'] <+: p.name

instance (module : List Char) (p : Param) : Decidable (BelongsTo module p) :=
  inferInstanceAs (Decidable ("base_model.model.".toList ++ module ++ ['.'] <+: p.name))

def BelongsToRouter (p : Param) : Prop := ∃ r ∈ profile.routerModuleNames, BelongsTo r p

instance (p : Param) : Decidable (BelongsToRouter profile p) :=
  inferInstanceAs (Decidable (∃ r ∈ profile.routerModuleNames, BelongsTo r p))

def FreezesRouters : Prop := applyLora lower peft model cfg profile =
  (loraParams lower peft model cfg profile).map
    (fun p => if BelongsToRouter profile p then freeze p else p)

end Apply

variable {lower : List Char → List Char} {profile : ModelProfile} {p : Param}

theorem freeze_eq_self (h : p.requiresGrad = false) : freeze p = p := by
  cases p
  simpa [freeze] using h.symm

theorem freeze_ne_self (h : p.requiresGrad = true) : freeze p ≠ p := by
  intro heq
  have hfrozen : (freeze p).requiresGrad = true := heq ▸ h
  cases hfrozen

theorem isRouterName_iff {name : List Char} : isRouterName lower profile name = true ↔
    (∃ r ∈ profile.routerModuleNames, r <:+: name) ∨ ∃ kw ∈ routerKw, kw <:+: lower name := by
  simp [isRouterName, List.any_eq_true]

theorem BelongsToRouter.isRouterName (h : BelongsToRouter profile p) :
    isRouterName lower profile p.name = true := by
  obtain ⟨r, hr, rest, hname⟩ := h
  refine isRouterName_iff.2 (Or.inl ⟨r, hr, "base_model.model.".toList, ['.'] ++ rest, ?_⟩)
  rw [← hname]
  simp only [List.append_assoc]

/-- The right ones are frozen exactly if every trainable parameter that the names or the keywords
catch belongs to a router; without freezing, if none does. -/
theorem applyLora_freezes_iff (lower : List Char → List Char)
    (peft : PeftConfig → Model → List Param) (model : Model) (cfg : LoraConfig)
    (profile : ModelProfile) : FreezesRouters lower peft model cfg profile ↔
      ∀ p ∈ loraParams lower peft model cfg profile, p.requiresGrad →
        if profile.isMoe && cfg.freezeRouter then
          (∃ r ∈ profile.routerModuleNames, r <:+: p.name) ∨
            (∃ kw ∈ routerKw, kw <:+: lower p.name) → BelongsToRouter profile p
        else ¬BelongsToRouter profile p := by
  rw [FreezesRouters, applyLora]
  generalize loraParams lower peft model cfg profile = params
  by_cases hfreezing : (profile.isMoe && cfg.freezeRouter) = true
  · simp only [if_pos hfreezing, freezeRouterWeights, List.map_inj_left, ← isRouterName_iff]
    refine forall₂_congr (fun p _ => ?_)
    constructor
    · intro h hgrad hname
      by_contra hnot
      rw [if_pos (by simp [hname, hgrad]), if_neg hnot] at h
      exact freeze_ne_self hgrad h
    · intro h
      cases hgrad : p.requiresGrad with
      | false => simp [freeze_eq_self hgrad]
      | true =>
        by_cases hbelongs : BelongsToRouter profile p
        · simp [hbelongs, hbelongs.isRouterName]
        · simp [hbelongs, mt (h hgrad) hbelongs]
  · simp only [if_neg hfreezing]
    conv_lhs => lhs; rw [← List.map_id params]
    rw [List.map_inj_left]
    refine forall₂_congr (fun p _ => ?_)
    constructor
    · intro h hgrad hbelongs
      rw [if_pos hbelongs] at h
      exact freeze_ne_self hgrad h.symm
    · intro h
      cases hgrad : p.requiresGrad with
      | false => simp [freeze_eq_self hgrad]
      | true => simp [h hgrad]

def mlpAttr : Attr := ⟨"mlp".toList, by decide, by decide⟩

def gateProjAttr : Attr := ⟨"gate_proj".toList, by decide, by decide⟩

def gateProjExpert : Forest Attr ModuleInfo := .cons gateProjAttr linearInfo .nil .nil

def gateProjBlock : Model where
  value := ⟨5, false, false, 0⟩
  below := .cons mlpAttr ⟨2, false, false, 0⟩
    (.cons gateAttr linearInfo .nil
      (.cons expertsAttr ⟨3, true, false, 0⟩
        (.cons zeroAttr ⟨1, false, false, 0⟩ gateProjExpert
          (.cons oneAttr ⟨1, false, false, 0⟩ gateProjExpert .nil)) .nil)) .nil
  distinct := by decide +kernel

def gateProjProfile : ModelProfile :=
  introspectModules (List.map Char.toLower) ⟨true, 2, 0, 1, none, [], [], [], 0⟩ 1 (some 2)
    gateProjBlock

def adapters (cfg : PeftConfig) (model : Model) : List Param :=
  model.entries.flatMap (fun m =>
    let name := "base_model.model.".toList ++ dotted m.path
    if m.value.isLinear && (cfg.targetModules.getD []).contains (shortName (dotted m.path)) then
      [⟨name ++ ".base_layer.weight".toList, false, 0⟩,
        ⟨name ++ ".lora_A.default.weight".toList, true, 1⟩,
        ⟨name ++ ".lora_B.default.weight".toList, true, 1⟩]
    else if 0 < m.value.parameters then [⟨name ++ ".weight".toList, false, 0⟩] else [])

def autoTargets : LoraConfig :=
  ⟨8, 16, 0, .list ["auto".toList], false, [], true, "ddp".toList⟩

/-- A router was found and `gate_proj` is a target, and the adapters are frozen with the router. -/
theorem gateProj_frozen : gateProjProfile.routerModuleNames = ["mlp.gate".toList] ∧
    gateProjProfile.loraTargets = ["gate_proj".toList] ∧
    ¬FreezesRouters (List.map Char.toLower) adapters gateProjBlock autoTargets gateProjProfile := by
  rw [FreezesRouters]
  decide +kernel

end Slakshna.Lora
