import Msm.Arr.Ffi
import Msm.Arr.Iterate
import Msm.Arr.Push
import Msm.Arr.Pushing
import Msm.Arr.Refill
import Msm.Arr.Waste
import Msm.Obj.Linear
import Msm.Obj.Map
import Msm.Own.Runs
import Msm.Seg.Aligned
import Msm.Seg.Schema
import Msm.Seg.Segments
import Msm.Seg.Threads
import Msm.Str.Exact
import Msm.Str.Reads
import Msm.Tree.Close
import Msm.Tree.Compose
import Msm.Tree.Document
import Msm.Tree.Visits
import Msm.Typed.Threads
