import FileMirror.RestoreEnd

set_option autoImplicit false

namespace FileMirror.Restore.Restorer

open FileMirror.Restorer Verify

variable {r : Restorer} {id : ObjectId} {nodes : List TreeFormat.Node} {n : TreeFormat.Node}
  {trail : List String} {snapshots : List (ObjectId × StoredSnapshot)}
  {plan : FileMirror.Restorer.Plan}

end FileMirror.Restore.Restorer
