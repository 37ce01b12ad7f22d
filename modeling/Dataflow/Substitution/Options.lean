import Dataflow.Attr

/-!
# Build options

What a build is asked for: the device whose partitions are replaced, the operation type of the
replacements, the layout the graph has to be in, and further attributes for the replacements.
-/

namespace Dataflow

inductive Layout where
  | nchw
  | nhwc
deriving DecidableEq, Repr, Inhabited

namespace Layout

def standard : Layout := nchw

def name : Layout → String
  | nchw => "NCHW"
  | nhwc => "NHWC"

def ofName? (s : String) : Option Layout :=
  if s = "NCHW" then some nchw else if s = "NHWC" then some nhwc else none

end Layout

inductive ConfigError where
  | unsupportedLayout (layout : String)
  | reservedAttribute (key : String)
  | emptyTarget
  | emptyCollapsedType
deriving DecidableEq, Repr

namespace ConfigError

def message : ConfigError → String
  | unsupportedLayout l => s!"unsupported layout '{l}': expected one of NCHW, NHWC"
  | reservedAttribute k =>
    s!"extra attribute '{k}' collides with an attribute reserved for collapsed nodes"
  | emptyTarget => "build target must not be empty"
  | emptyCollapsedType => "collapsed type tag must not be empty"

end ConfigError

/-- The layout of a name, which has to be one of the two. -/
def Layout.parse (s : String) : Except ConfigError Layout :=
  match ofName? s with
  | some l => .ok l
  | none => .error (.unsupportedLayout s)

structure BuildOptions where
  /-- The device whose partitions are collapsed. -/
  target : String
  /-- The operation type of collapsed nodes. -/
  collapsedType : String
  layout : Layout := .standard
  /-- Further attributes for every collapsed node. -/
  extraAttrs : Attrs := .empty
deriving Inhabited

namespace BuildOptions

/-- The attributes that every collapsed node carries; callers leave them alone. -/
def reserved : List String :=
  ["input_names", "output_names", "input_layers", "output_layers", "rt_in_map", "rt_out_map"]

def withExtraAttr (o : BuildOptions) (key : String) (value : Attr) : BuildOptions :=
  { o with extraAttrs := o.extraAttrs.insert key value }

/-- Target and type have to be given, and no extra attribute may take a reserved name. -/
def validate (o : BuildOptions) : Except ConfigError Unit :=
  if o.target = "" then .error .emptyTarget
  else if o.collapsedType = "" then .error .emptyCollapsedType
  else
    match o.extraAttrs.keys.find? (· ∈ reserved) with
    | some key => .error (.reservedAttribute key)
    | none => .ok ()

end BuildOptions

end Dataflow
